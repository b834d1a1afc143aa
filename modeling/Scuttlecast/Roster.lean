import Scuttlecast.Sender.Attendance
import Scuttlecast.FlowControl
import Scuttlecast.Library.History

/-! Who takes part and who has a say. Only reports keep a receiver in the group, a tick takes out
just those it has not heard from, and whoever is out is as good as unheard. -/
namespace Scuttlecast
namespace Group

variable {g g' : Group} {id : ℕ}

/-- When a participant was last heard of. -/
def seen (g : Group) (id : ℕ) : Option (Option ℕ) :=
  (g.participants.lookup id).map (·.lastSeen)

theorem contains_eq_seen (g : Group) (id : ℕ) : g.contains id = (g.seen id).isSome := by
  rw [contains, seen, Option.isSome_map, Bool.eq_iff_iff, AList.lookup_isSome]
  exact decide_eq_true_iff

theorem exists_standing_of_seen {seen : Option ℕ} (h : g.seen id = some seen) :
    ∃ complete, g.standing id = some complete := by
  rw [← Option.isSome_iff_exists, ← contains_eq, contains_eq_seen, h]
  rfl

theorem len_ne_zero_of_seen {seen : Option ℕ} (h : g.seen id = some seen) : g.len ≠ 0 := by
  obtain ⟨complete, hstanding⟩ := exists_standing_of_seen h
  intro hzero
  rw [len_eq_zero_iff.mp hzero id] at hstanding
  cases hstanding

theorem seen_markAllSeen (now : ℕ) :
    (g.markAllSeen now).seen id = (g.seen id).map fun _ => some now := by
  rw [seen, seen, markAllSeen, Table.lookup_mapValues, Option.map_map, Option.map_map]
  rfl

theorem seen_markSeen (k now : ℕ) : (g.markSeen k now).seen id =
    if id = k then (g.seen id).map fun _ => some now else g.seen id := by
  rw [seen, seen, markSeen, Table.lookup_modify]
  split_ifs
  · rw [Option.map_map, Option.map_map]
    rfl
  · rfl

theorem seen_onEof (totalSlices : ℕ) : (g.onEof totalSlices).seen id = g.seen id := by
  rw [seen, seen, onEof, Table.lookup_mapValues, Option.map_map]
  rfl

theorem seen_leave (k : ℕ) :
    (g.leave k).2.seen id = if id = k then none else g.seen id := by
  rw [seen, seen, leave, Table.lookup_erase']
  split_ifs <;> rfl

theorem seen_reapSilent (now timeout : ℕ) : (g.reapSilent now timeout).2.seen id =
    if id ∈ (g.stale now timeout).map Prod.fst then none else g.seen id := by
  rw [seen, seen, reapSilent, Table.lookup_eraseAll]
  split_ifs <;> rfl

/-- Replacing a participant by one heard of at the same time. -/
theorem seen_insert {p p' : Participant} {k : ℕ} (hp : g.participants.lookup k = some p)
    (hseen : p'.lastSeen = p.lastSeen) (hg : g'.participants = g.participants.insert k p') :
    g'.seen id = g.seen id := by
  rw [seen, seen, hg, Table.lookup_insert']
  split_ifs with hid
  · rw [hid, hp, Option.map_some, Option.map_some, hseen]
  · rfl

theorem report_lastSeen (p : Participant) (stats : Stats) :
    (p.report stats).2.lastSeen = p.lastSeen := by
  unfold Participant.report
  dsimp only
  split
  · rfl
  · split_ifs <;> rfl

theorem seen_repairDemand (stats : Stats) : (g.repairDemand stats).2.seen id = g.seen id := by
  unfold repairDemand
  split
  · rfl
  · next p hp => exact seen_insert hp (report_lastSeen p stats) rfl

theorem seen_onStats (stats : Stats) : (g.onStats stats).2.seen id = g.seen id := by
  rcases g.onStats_cases stats with ⟨-, heq⟩ | ⟨p, hp, heq⟩ <;> rw [heq]
  have hadvance : (g.heard stats p).advance.2.seen id = (g.heard stats p).seen id := by
    rcases (g.heard stats p).advance_cases with heq | ⟨-, suppressed, heq⟩ <;> rw [heq]
    rfl
  rw [hadvance]
  let p' : Participant := { p with
    nextNeeded := stats.nextNeededSlice
    reachedEnd := g.totalSlices.any fun totalSlices => totalSlices ≤ stats.nextNeededSlice }
  have hseen : p'.lastSeen = p.lastSeen := rfl
  exact seen_insert hp hseen rfl

theorem seen_onNak (nak : Nak) (now : ℕ) : (g.onNak nak now).2.seen id = g.seen id := by
  rcases g.onNak_frame nak now with ⟨-, heq⟩ | ⟨-, -, suppressed, heq⟩ <;> rw [heq]
  rw [seen, seen, Table.lookup_modify]
  split_ifs
  · rw [Option.map_map]
    rfl
  · rfl

/-- Stale are those last heard of too long ago. -/
theorem mem_stale_iff {now timeout : ℕ} : id ∈ (g.stale now timeout).map Prod.fst ↔
    ∃ t, g.seen id = some (some t) ∧ t + timeout < now := by
  have hlookup : id ∈ (g.stale now timeout).map Prod.fst ↔
      ∃ p, g.participants.lookup id = some p ∧ p.lastSeen.any fun t => timeout < now - t := by
    simp only [stale, List.map_map, List.mem_map, List.mem_filter, Table.lookup_eq_some_iff]
    constructor
    · rintro ⟨⟨id, p⟩, ⟨hmem, hsilent⟩, rfl⟩
      exact ⟨p, hmem, hsilent⟩
    · rintro ⟨p, hmem, hsilent⟩
      exact ⟨⟨id, p⟩, ⟨hmem, hsilent⟩, rfl⟩
  rw [hlookup, seen]
  simp only [Option.any_eq_true, Option.map_eq_some_iff, decide_eq_true_eq]
  constructor
  · rintro ⟨p, hp, t, ht, hlt⟩
    exact ⟨t, ⟨p, hp, ht⟩, by omega⟩
  · rintro ⟨t, ⟨p, hp, ht⟩, hlt⟩
    exact ⟨p, hp, t, ht, by omega⟩

theorem stale_eq_nil_iff {now timeout : ℕ} : g.stale now timeout = [] ↔
    ∀ id t, g.seen id = some (some t) → now ≤ t + timeout := by
  rw [← List.map_eq_nil_iff (f := Prod.fst), List.eq_nil_iff_forall_not_mem]
  simp only [mem_stale_iff, not_exists, not_and, Nat.not_lt]

theorem leave_of_not_contains (h : g.contains id = false) : (g.leave id).2 = g := by
  have hnot : id ∉ g.participants := of_decide_eq_false h
  have herase : g.participants.erase id = g.participants := by
    apply AList.ext
    exact List.kerase_of_notMem_keys hnot
  rw [leave, herase]

end Group

namespace SendLoop

variable {config : Config} {gathered : List Message} {events : List Event} {s s' : SendLoop}
  {e : Event} {id start : ℕ}

/-- When a receiver was last heard of: at its last report, or when the loop began. -/
def heardAt (id start : ℕ) (events : List Event) : ℕ :=
  events.foldl (fun heard e =>
    match e with
    | .control now (.stats stats) => if stats.receiverId = id then now else heard
    | _ => heard) start

theorem heardAt_concat (id start : ℕ) (events : List Event) (e : Event) :
    heardAt id start (events ++ [e]) =
      match e with
      | .control now (.stats stats) =>
        if stats.receiverId = id then now else heardAt id start events
      | _ => heardAt id start events := by
  rw [heardAt, List.foldl_append]
  rfl

/-- The event takes a receiver out of the group neither for silence nor at its own wish. -/
def Spares (id start : ℕ) (before : List Event) : Event → Prop
  | .tick now _ _ => now ≤ heardAt id start before + silenceTimeout
  | .control _ (.leave _ r) => r ≠ id
  | _ => True

theorem seen_onStats (now : ℕ) (stats : Stats) : (s.onStats now stats).loop.group.seen id =
    if stats.receiverId = id then (s.group.seen id).map fun _ => some now
    else s.group.seen id := by
  unfold onStats
  split_ifs with hcontains hid hid
  · simp only [Group.seen_repairDemand, Group.seen_onStats, Group.seen_markSeen, if_pos hid.symm]
  · simp only [Group.seen_repairDemand, Group.seen_onStats, Group.seen_markSeen,
      if_neg (Ne.symm hid)]
  · rw [Bool.not_eq_true, Group.contains_eq_seen, Option.isSome_eq_false_iff,
      Option.isNone_iff_eq_none, hid] at hcontains
    rw [hcontains]
    rfl
  · rfl

/-- What one turn does to when a receiver was last heard of. -/
theorem seen_branch (e : Event) : (s.branch e).loop.group.seen id =
    match e with
    | .tick now _ _ =>
      if id ∈ (s.group.stale now silenceTimeout).map Prod.fst then none else s.group.seen id
    | .control now (.stats stats) =>
      if stats.receiverId = id then (s.group.seen id).map fun _ => some now else s.group.seen id
    | .control _ (.leave _ r) => if id = r then none else s.group.seen id
    | _ => s.group.seen id := by
  cases e with
  | egress now message =>
    cases message with
    | shard => rfl
    | eof bytes blocks => exact Group.seen_onEof _
  | egressClosed => rfl
  | tick now idle wanted => exact Group.seen_reapSilent now silenceTimeout
  | deadline now => rfl
  | control now message =>
    cases message with
    | stats stats => exact seen_onStats now stats
    | nak nak => exact Group.seen_onNak nak now
    | leave t r => exact Group.seen_leave r
    | _ => rfl

theorem seen_settle (o : LoopOutcome) : o.settle.loop.group.seen id = o.loop.group.seen id := by
  obtain ⟨verdict, heq⟩ := o.settle_eq
  rw [heq]

/-- Whoever takes part was heard of when the events say so; it takes part if it did at first and
every event spared it. -/
structure Enrolled (gathered : List Message) (start : ℕ) (events : List Event) (s : SendLoop)
    (id : ℕ) : Prop where
  heard : ∀ t, s.group.seen id = some t → t = some (heardAt id start events)
  member : (s.group.seen id).isSome ↔ (gather gathered).contains id ∧
    History.Each (Spares id start) events

theorem enrolled_new (config : Config) (gathered : List Message) (start id : ℕ) :
    Enrolled gathered start [] (.new config (gather gathered) start) id := by
  have hseen : (new config (gather gathered) start).group.seen id =
      ((gather gathered).seen id).map fun _ => some start := Group.seen_markAllSeen start
  constructor
  · intro t ht
    rw [hseen] at ht
    obtain ⟨_, -, rfl⟩ := Option.map_eq_some_iff.mp ht
    rfl
  · rw [hseen, Option.isSome_map, Group.contains_eq_seen]
    exact ⟨fun h => ⟨h, History.each_nil⟩, fun h => h.1⟩

theorem Enrolled.branch (h : Enrolled gathered start events s id) (e : Event) :
    Enrolled gathered start (events ++ [e]) (s.branch e).settle.loop id := by
  -- an event that spares the receiver and says nothing of it
  have hquiet (hseen : (s.branch e).loop.group.seen id = s.group.seen id)
      (hheard : heardAt id start (events ++ [e]) = heardAt id start events)
      (hspares : Spares id start events e) :
      Enrolled gathered start (events ++ [e]) (s.branch e).settle.loop id := by
    refine ⟨fun t ht => ?_, ?_⟩
    · rw [seen_settle, hseen] at ht
      rw [hheard]
      exact h.heard t ht
    · rw [seen_settle, hseen, h.member, History.each_concat]
      exact and_congr_right fun _ => (and_iff_left hspares).symm
  -- an event that takes it out, or would if it were still in
  have hout (hseen : (s.branch e).loop.group.seen id = none) (hnot : ¬ Spares id start events e) :
      Enrolled gathered start (events ++ [e]) (s.branch e).settle.loop id := by
    refine ⟨fun t ht => ?_, ?_⟩
    · rw [seen_settle, hseen] at ht
      cases ht
    · rw [seen_settle, hseen, History.each_concat]
      simp [hnot]
  have hseen : (s.branch e).loop.group.seen id = _ := seen_branch e
  have hheard := heardAt_concat id start events e
  cases e with
  | tick now idle wanted =>
    simp only at hseen hheard
    rcases hmember : s.group.seen id with _ | t
    · have hnone : (s.branch (.tick now idle wanted)).loop.group.seen id = none := by
        rw [hseen, hmember]
        split_ifs <;> rfl
      have hgone := h.member
      rw [hmember] at hgone
      refine ⟨fun t ht => ?_, ?_⟩
      · rw [seen_settle, hnone] at ht
        cases ht
      · rw [seen_settle, hnone, History.each_concat]
        simp only [Option.isSome_none, Bool.false_eq_true, false_iff] at hgone ⊢
        exact fun hall => hgone ⟨hall.1, hall.2.1⟩
    · have htime := h.heard t hmember
      by_cases hstale : id ∈ (s.group.stale now silenceTimeout).map Prod.fst
      · refine hout (by rw [hseen, if_pos hstale]) fun hspares => ?_
        obtain ⟨t', ht', hlt⟩ := Group.mem_stale_iff.mp hstale
        rw [hmember, htime, Option.some.injEq, Option.some.injEq] at ht'
        unfold Spares at hspares
        omega
      · refine hquiet (by rw [hseen, if_neg hstale]) hheard ?_
        by_contra hnot
        unfold Spares at hnot
        exact hstale (Group.mem_stale_iff.mpr ⟨_, htime ▸ hmember, by omega⟩)
  | control now message =>
    cases message with
    | stats stats =>
      simp only at hseen hheard
      by_cases hid : stats.receiverId = id
      · rw [if_pos hid] at hseen hheard
        refine ⟨fun t ht => ?_, ?_⟩
        · rw [seen_settle, hseen] at ht
          obtain ⟨_, -, rfl⟩ := Option.map_eq_some_iff.mp ht
          rw [hheard]
        · rw [seen_settle, hseen, Option.isSome_map, h.member, History.each_concat]
          exact and_congr_right fun _ => (and_iff_left trivial).symm
      · rw [if_neg hid] at hseen hheard
        exact hquiet hseen hheard trivial
    | leave t r =>
      simp only at hseen hheard
      by_cases hid : id = r
      · exact hout (by rw [hseen, if_pos hid]) fun hspares => hspares hid.symm
      · rw [if_neg hid] at hseen
        exact hquiet hseen hheard (Ne.symm hid)
    | _ => exact hquiet hseen hheard trivial
  | _ => exact hquiet hseen hheard trivial

theorem enrolled_of_exec
    (hexec : Labelled.exec (loops config gathered) events (.new config (gather gathered) start) =
      some s) (id : ℕ) : Enrolled gathered start events s id := by
  apply Labelled.exec_induction (I := fun events s => Enrolled gathered start events s id) ?_ ?_ hexec
  · exact enrolled_new config gathered start id
  · rintro events e s s' - h hn
    obtain ⟨-, -, rfl⟩ := next_cases hn
    exact h.branch e

/-- A tick names just those it takes out of the group. -/
theorem evicted_iff {now wanted : ℕ} {idle : Bool} :
    (∃ evicted : Evicted, .control (.evicted evicted) ∈ (s.tick now idle wanted).multicast ∧
      evicted.target = id) ↔ id ∈ (s.group.stale now silenceTimeout).map Prod.fst := by
  have hmem (evicted : Evicted) :
      .control (.evicted evicted) ∈ (s.tick now idle wanted).multicast ↔
        ∃ e ∈ s.group.stale now silenceTimeout, s.evictedMessage e.1 e.2 =
          .control (.evicted evicted) := by
    simp only [tick, List.mem_append, List.mem_map]
    constructor
    · rintro ((h | h) | h)
      · exact h
      · split_ifs at h
        · exact absurd (List.mem_singleton.mp h) (by simp [doneMessage])
        · cases h
      · split_ifs at h
        · exact absurd (List.mem_singleton.mp h) (by simp)
        · cases h
    · exact fun h => .inl (.inl h)
  simp only [hmem, List.mem_map]
  constructor
  · rintro ⟨evicted, ⟨e, he, heq⟩, rfl⟩
    unfold evictedMessage at heq
    rw [Incoming.control.injEq, Message.evicted.injEq] at heq
    exact ⟨e, he, by rw [← heq]⟩
  · rintro ⟨e, he, rfl⟩
    exact ⟨_, ⟨e, he, rfl⟩, rfl⟩

/-- A receiver takes part exactly if it did when the gathering ended, has not left since, and had
reported within the timeout, or the loop had just begun, at every tick; and a tick says that a
receiver is evicted exactly if it takes part and has been silent for longer than that. -/
theorem eviction_is_exact
    (hexec : Labelled.exec (loops config gathered) events (.new config (gather gathered) start) =
      some s) (id : ℕ) :
    (s.group.contains id ↔
      (gather gathered).contains id ∧ History.Each (Spares id start) events) ∧
    ∀ now idle wanted,
      (∃ evicted : Evicted, .control (.evicted evicted) ∈ (s.tick now idle wanted).multicast ∧
        evicted.target = id) ↔
      s.group.contains id ∧ heardAt id start events + silenceTimeout < now := by
  have h := enrolled_of_exec hexec id
  refine ⟨by rw [Group.contains_eq_seen]; exact h.member, fun now idle wanted => ?_⟩
  rw [evicted_iff, Group.mem_stale_iff, Group.contains_eq_seen]
  constructor
  · rintro ⟨t, ht, hlt⟩
    have htime := Option.some.inj (h.heard _ ht)
    exact ⟨by rw [ht]; rfl, htime ▸ hlt⟩
  · rintro ⟨hsome, hlt⟩
    obtain ⟨t, ht⟩ := Option.isSome_iff_exists.mp hsome
    exact ⟨_, h.heard t ht ▸ ht, hlt⟩

/-- Two receivers, one of which reports before the timeout is over: the tick after it takes out the
other. -/
theorem eviction_is_exact_silent : ∃ s,
    Labelled.exec (loops (.tiny 2) [.join 7 0, .join 7 1])
      [.control 5 (.stats ⟨7, 0, 1, 1, 1, 0⟩), .tick (silenceTimeout + 1) true 0]
      (.new (.tiny 2) (gather [.join 7 0, .join 7 1]) 0) = some s ∧
      s.group.contains 0 = true ∧ s.group.contains 1 = false := by
  obtain ⟨s, hexec⟩ : ∃ s, Labelled.exec (loops (.tiny 2) [.join 7 0, .join 7 1])
      [.control 5 (.stats ⟨7, 0, 1, 1, 1, 0⟩), .tick (silenceTimeout + 1) true 0]
      (.new (.tiny 2) (gather [.join 7 0, .join 7 1]) 0) = some s := by
    apply Option.isSome_iff_exists.mp
    decide +kernel
  refine ⟨s, hexec, ?_, ?_⟩
  · refine (eviction_is_exact hexec 0).1.mpr ⟨by decide, ?_⟩
    rw [show ([.control 5 (.stats ⟨7, 0, 1, 1, 1, 0⟩), .tick (silenceTimeout + 1) true 0] : List Event) =
      [] ++ [.control 5 (.stats ⟨7, 0, 1, 1, 1, 0⟩)] ++ [.tick (silenceTimeout + 1) true 0] from rfl,
      History.each_concat, History.each_concat]
    refine ⟨⟨History.each_nil, trivial⟩, ?_⟩
    unfold Spares
    decide
  · rw [Bool.eq_false_iff]
    intro hcontains
    have hspared := ((eviction_is_exact hexec 1).1.mp hcontains).2
      [.control 5 (.stats ⟨7, 0, 1, 1, 1, 0⟩)] (.tick (silenceTimeout + 1) true 0) [] rfl
    unfold Spares at hspared
    revert hspared
    decide

section Say

/-- Whether the loop goes by what it takes up: by everything but what comes from outside the
group, and requests to join. -/
def heeds (s : SendLoop) : Event → Bool
  | .control _ (.stats stats) => s.group.contains stats.receiverId
  | .control _ (.nak nak) => s.group.contains nak.receiverId
  | .control _ (.leave _ r) => s.group.contains r
  | .control _ _ => false
  | _ => true

/-- The events of a run that the loop goes by. -/
def heeded : List Event → SendLoop → List Event
  | [], _ => []
  | e :: rest, s =>
    if s.heeds e then e :: heeded rest (s.branch e).settle.loop
    else heeded rest (s.branch e).settle.loop

/-- All that a run sends to the group, and all that it tells the slicer. -/
def output : List Event → SendLoop → List Incoming × List Feedback
  | [], _ => ([], [])
  | e :: rest, s =>
    let o := (s.branch e).settle
    let later := output rest o.loop
    (o.multicast ++ later.1, o.feedback ++ later.2)

/-- What is not heeded changes nothing, and nothing is said because of it. -/
theorem branch_of_unheeded (h : s.heeds e = false) : s.branch e = { loop := s } := by
  cases e with
  | control now message =>
    cases message with
    | stats stats =>
      have hnot : s.group.contains stats.receiverId = false := h
      simp [branch, control, onStats, hnot]
    | nak nak =>
      have hnot : s.group.contains nak.receiverId = false := h
      have hnak : s.group.onNak nak now = ([], s.group) := by
        rw [Group.onNak, if_pos (.inl (by simp [hnot]))]
      simp [branch, control, onNak, hnak]
    | leave t r =>
      have hleave : (s.group.leave r).2 = s.group := Group.leave_of_not_contains h
      simp [branch, control, hleave]
    | _ => rfl
  | _ => cases h

theorem Concluded.unfinished (hs : s.Concluded) (hrun : s.verdict = none) : s.Unfinished := by
  rw [Concluded, hrun] at hs
  exact hs

theorem settle_of_unfinished {o : LoopOutcome} (hrun : o.loop.verdict = none)
    (h : o.loop.Unfinished) : o.settle = o := by
  have htop : o.loop.checkTop = o.loop := by rw [checkTop, if_neg h.1, if_neg h.2]
  simp [LoopOutcome.settle, hrun, htop]

/-- Who a control message comes from, of those that take part in a transfer. -/
def Event.speaker : Event → Option ℕ
  | .control _ (.stats stats) => some stats.receiverId
  | .control _ (.nak nak) => some nak.receiverId
  | .control _ (.leave _ r) => some r
  | _ => none

theorem contains_of_heeds (h : s.heeds e = true) (hid : e.speaker = some id) :
    s.group.contains id = true := by
  cases e with
  | control now message =>
    cases message with
    | stats stats => exact Option.some.inj hid ▸ h
    | nak nak => exact Option.some.inj hid ▸ h
    | leave t r => exact Option.some.inj hid ▸ h
    | _ => cases hid
  | _ => cases hid

/-- Nobody joins a loop that has begun. -/
theorem contains_branch (e : Event) (h : (s.branch e).settle.loop.group.contains id = true) :
    s.group.contains id = true := by
  rw [Group.contains_eq_seen, seen_settle, seen_branch] at h
  rw [Group.contains_eq_seen]
  split at h
  · split_ifs at h
    · cases h
    · exact h
  · split_ifs at h
    · rwa [Option.isSome_map] at h
    · exact h
  · split_ifs at h
    · cases h
    · exact h
  · exact h

/-- Without what it does not heed the loop does the same. -/
theorem exec_heeded {before : List Event} (h : Attends config gathered before s)
    (hs : s.Concluded) (hexec : Labelled.exec (loops config gathered) events s = some s') :
    Labelled.exec (loops config gathered) (heeded events s) s = some s' ∧
      output (heeded events s) s = output events s := by
  induction events generalizing before s with
  | nil => exact ⟨hexec, rfl⟩
  | cons e rest ih =>
    rw [Labelled.exec_cons, Option.bind_eq_some_iff] at hexec
    obtain ⟨s₁, hnext, hexec⟩ := hexec
    have hs₁ := concluded_next h hs hnext
    obtain ⟨hrun, -, rfl⟩ := next_cases hnext
    obtain ⟨hrest, hsaid⟩ := ih (h.branch e).settle hs₁ hexec
    by_cases hheeds : s.heeds e = true
    · rw [heeded, if_pos hheeds]
      refine ⟨?_, ?_⟩
      · rw [Labelled.exec_cons, hnext, Option.bind_some]
        exact hrest
      · rw [output, output, hsaid]
    · have hidle : (s.branch e).settle = { loop := s } := by
        rw [branch_of_unheeded (Bool.not_eq_true _ ▸ hheeds)]
        exact settle_of_unfinished hrun (hs.unfinished hrun)
      rw [heeded, if_neg hheeds]
      rw [hidle] at hrest hsaid ⊢
      refine ⟨hrest, ?_⟩
      rw [hsaid, output, hidle]
      rfl

theorem heeded_speakers {members : ℕ → Prop} (h : ∀ id, s.group.contains id = true → members id)
    (he : e ∈ heeded events s) (hid : e.speaker = some id) : members id := by
  induction events generalizing s with
  | nil => cases he
  | cons e' rest ih =>
    have hrest : ∀ id, (s.branch e').settle.loop.group.contains id = true → members id :=
      fun id hcontains => h id (contains_branch e' hcontains)
    rw [heeded] at he
    split_ifs at he with hheeds
    · rcases List.mem_cons.mp he with rfl | he
      · exact h id (contains_of_heeds hheeds hid)
      · exact ih hrest he
    · exact ih hrest he

/-- Whatever comes from outside the group, from strangers, from receivers evicted or gone, could as
well not have come: without it the run is one that ends in the same state, having sent and told the
slicer the same. Only those who had joined when the gathering ended are ever listened to. -/
theorem outsiders_have_no_say (hmembers : (gather gathered).len ≠ 0)
    (hexec : Labelled.exec (loops config gathered) events (.new config (gather gathered) start) =
      some s) :
    Labelled.exec (loops config gathered)
        (heeded events (.new config (gather gathered) start))
        (.new config (gather gathered) start) = some s ∧
      output (heeded events (.new config (gather gathered) start))
          (.new config (gather gathered) start) =
        output events (.new config (gather gathered) start) ∧
      ∀ e ∈ heeded events (.new config (gather gathered) start), ∀ id, e.speaker = some id →
        (gather gathered).contains id := by
  obtain ⟨hsame, hsaid⟩ := exec_heeded (attends_new config gathered start)
    (concluded_new start hmembers) hexec
  refine ⟨hsame, hsaid, fun e he id hid => ?_⟩
  have hmember (id : ℕ)
      (hcontains : (new config (gather gathered) start).group.contains id = true) :
      (gather gathered).contains id = true := by
    have hseen : (new config (gather gathered) start).group.seen id =
        ((gather gathered).seen id).map fun _ => some start := Group.seen_markAllSeen start
    rw [Group.contains_eq_seen, hseen, Option.isSome_map] at hcontains
    rw [Group.contains_eq_seen]
    exact hcontains
  exact heeded_speakers hmember he hid

/-- A stranger's report, and one of a receiver that has left by then. -/
theorem outsiders_have_no_say_after_leaving : ∃ s,
    Labelled.exec (loops (.tiny 2) [.join 7 0, .join 7 1])
      [.control 1 (.leave 7 1), .control 2 (.stats ⟨7, 1, 1, 1, 1, 0⟩),
        .control 3 (.stats ⟨7, 9, 1, 1, 1, 0⟩), .control 4 (.stats ⟨7, 0, 1, 1, 1, 0⟩)]
      (.new (.tiny 2) (gather [.join 7 0, .join 7 1]) 0) = some s ∧
    Labelled.exec (loops (.tiny 2) [.join 7 0, .join 7 1])
      [.control 1 (.leave 7 1), .control 4 (.stats ⟨7, 0, 1, 1, 1, 0⟩)]
      (.new (.tiny 2) (gather [.join 7 0, .join 7 1]) 0) = some s := by
  obtain ⟨s, hexec⟩ : ∃ s, Labelled.exec (loops (.tiny 2) [.join 7 0, .join 7 1])
      [.control 1 (.leave 7 1), .control 2 (.stats ⟨7, 1, 1, 1, 1, 0⟩),
        .control 3 (.stats ⟨7, 9, 1, 1, 1, 0⟩), .control 4 (.stats ⟨7, 0, 1, 1, 1, 0⟩)]
      (.new (.tiny 2) (gather [.join 7 0, .join 7 1]) 0) = some s := by
    apply Option.isSome_iff_exists.mp
    decide +kernel
  have hheeded : heeded
      [.control 1 (.leave 7 1), .control 2 (.stats ⟨7, 1, 1, 1, 1, 0⟩),
        .control 3 (.stats ⟨7, 9, 1, 1, 1, 0⟩), .control 4 (.stats ⟨7, 0, 1, 1, 1, 0⟩)]
      (.new (.tiny 2) (gather [.join 7 0, .join 7 1]) 0) =
        [.control 1 (.leave 7 1), .control 4 (.stats ⟨7, 0, 1, 1, 1, 0⟩)] := by
    decide +kernel
  refine ⟨s, hexec, ?_⟩
  rw [← hheeded]
  exact (outsiders_have_no_say (by decide) hexec).1

end Say

/-- Whoever a branch says is evicted is not in the group after it. -/
theorem not_contains_of_evicted {evicted : Evicted} (e : Event)
    (h : .control (.evicted evicted) ∈ (s.branch e).multicast) :
    (s.branch e).settle.loop.group.contains evicted.target = false := by
  cases e with
  | egress now message => cases message <;> simp [branch, egress, doneMessage] at h
  | tick now idle wanted =>
    have hstale := evicted_iff.mp ⟨evicted, h, rfl⟩
    have hseen : (s.branch (.tick now idle wanted)).loop.group.seen evicted.target = _ :=
      seen_branch _
    rw [Group.contains_eq_seen, seen_settle, hseen]
    simp only
    rw [if_pos hstale]
    rfl
  | control now message =>
    obtain ⟨group, feedback, heq⟩ := World.control_cases s now message
    rw [branch, heq] at h
    cases h
  | _ => cases h

end SendLoop

/-- The session has been told that it is evicted. -/
def Evicts : Option SessionEnd → Prop
  | some (.returned (.error (.evicted _))) => True
  | _ => False

namespace Session

variable {rs : ReedSolomon} {s : Session} {o : Outcome} {now : ℕ}

theorem evicts_andThen {f : Session → Outcome} (h : Evicts (o.andThen f).ended) :
    Evicts o.ended ∨ o.ended = none ∧ Evicts (f o.session).ended := by
  rcases o.andThen_cases f with ⟨_, _, heq⟩ | ⟨hrun, heq⟩ <;> rw [heq] at h
  · exact .inl h
  · exact .inr ⟨hrun, h⟩

theorem sendNaks_evicts (s : Session) (gaps : List (ℕ × List ℕ)) :
    ¬ Evicts (s.sendNaks gaps).ended := by
  induction gaps with
  | nil => exact id
  | cons gap rest ih =>
    unfold sendNaks
    dsimp only
    split
    · exact id
    · rw [Outcome.andThen_of_running rfl]
      exact ih

theorem requestGaps_if_evicts (s : Session) (now : ℕ) (c : Prop) [Decidable c] :
    ¬ Evicts (if c then s.requestGaps now else { session := s }).ended := by
  split_ifs
  · exact sendNaks_evicts _ _
  · exact id

theorem onShard_evicts (s : Session) (frame : Frame) (now : ℕ) :
    ¬ Evicts (s.onShard frame now).ended := by
  unfold onShard
  split
  · exact id
  · exact id
  unfold takeShard
  dsimp only
  split
  · exact id
  · exact requestGaps_if_evicts _ _ _

theorem onArrival_evicts {arrival : Incoming} (h : Evicts (s.onArrival now arrival).ended) :
    ∃ evicted, arrival = .control (.evicted evicted) ∧ evicted.target = s.receiverId := by
  unfold onArrival at h
  split at h
  · exact (onShard_evicts _ _ _ h).elim
  · exact (sendNaks_evicts _ _ h).elim
  · split_ifs at h <;> exact h.elim
  · next evicted =>
    split_ifs at h with htarget
    · exact ⟨evicted, rfl, htarget⟩
    · exact h.elim
  · exact h.elim

theorem onArrivals_evicts {arrivals : List (ℕ × Incoming)}
    (h : Evicts (s.onArrivals arrivals).ended) : ∃ evicted, ∃ arrival ∈ arrivals,
      arrival.2 = .control (.evicted evicted) ∧ evicted.target = s.receiverId := by
  induction arrivals generalizing s with
  | nil => exact h.elim
  | cons arrival rest ih =>
    rcases evicts_andThen h with h | ⟨-, h⟩
    · obtain ⟨evicted, heq, htarget⟩ := onArrival_evicts h
      exact ⟨evicted, arrival, List.mem_cons_self, heq, htarget⟩
    · obtain ⟨evicted, later, hlater, heq, htarget⟩ := ih h
      rw [(onArrival_moves s arrival.1 arrival.2).follows.receiverId] at htarget
      exact ⟨evicted, later, List.mem_cons_of_mem _ hlater, heq, htarget⟩

theorem handOver_evicts (s : Session) (sink : Sink) : ¬ Evicts (s.handOver rs sink now).ended := by
  unfold handOver
  dsimp only
  split
  · exact id
  · split_ifs <;> exact id

theorem conclude_evicts (s : Session) (now : ℕ) : ¬ Evicts (s.conclude now).ended := by
  rcases hcheck : s.checkByteTotal with e | _
  · rw [conclude, hcheck]
    unfold checkByteTotal at hcheck
    split at hcheck
    · split_ifs at hcheck
      rw [← Except.error.inj hcheck]
      exact id
    · cases hcheck
  · rw [conclude_of_check hcheck]
    exact id

/-- Only a message that names it tells a session that it is evicted. -/
theorem turn_evicts {b : Branch} {sink : Sink} (h : Evicts (s.turn rs now b sink).ended) :
    ∃ arrivals evicted, b = .packets arrivals ∧ (∃ arrival ∈ arrivals,
      arrival.2 = .control (.evicted evicted)) ∧ evicted.target = s.receiverId := by
  rcases evicts_andThen h with h | ⟨-, h⟩
  · rcases evicts_andThen h with h | ⟨-, h⟩
    · cases b with
      | packets arrivals =>
        obtain ⟨evicted, arrival, hmem, heq, htarget⟩ := onArrivals_evicts h
        exact ⟨arrivals, evicted, rfl, ⟨arrival, hmem, heq⟩, htarget⟩
      | renakTick => exact (sendNaks_evicts _ _ h).elim
      | _ => exact h.elim
    · exact (handOver_evicts _ _ h).elim
  · split_ifs at h
    · exact h.elim
    · exact (conclude_evicts _ _ h).elim

end Session

namespace World

variable {rs : ReedSolomon} {config : Config} {reader : Reader} {w w' : World}

/-- Nobody in the group is told, or about to be told, that it is evicted. -/
structure Agreed (w : World) : Prop where
  air : ∀ r evicted, .control (.evicted evicted) ∈ w.air r →
    w.loop.group.contains evicted.target = false
  peers : ∀ r, Evicts (w.peers r).ended → w.loop.group.contains r = false

theorem Agreed.afterLoop (h : w.Agreed) (e : SendLoop.Event) :
    (w.afterLoop (w.loop.branch e)).Agreed := by
  have hout {id : ℕ} (hnot : w.loop.group.contains id = false) :
      (w.loop.branch e).settle.loop.group.contains id = false := by
    rw [← Bool.not_eq_true] at hnot ⊢
    exact fun hcontains => hnot (SendLoop.contains_branch e hcontains)
  refine ⟨fun r evicted hair => ?_, fun r hended => hout (h.peers r hended)⟩
  rcases List.mem_append.mp hair with hair | hair
  · exact hout (h.air r evicted hair)
  · obtain ⟨verdict, heq⟩ := (w.loop.branch e).settle_eq
    rw [heq] at hair
    exact SendLoop.not_contains_of_evicted e hair

theorem Agreed.step (h : w.Agreed) (hids : ∀ r, (w.peers r).session.receiverId = r) {a : Action}
    (hstep : Step rs a w w') : w'.Agreed := by
  cases hstep with
  | @egress _ message rest now hrun hout =>
    have hrest : Agreed { w with outbound := rest } := ⟨h.air, h.peers⟩
    exact hrest.afterLoop (.egress now message)
  | egressClosed hrun hempty hended => exact h.afterLoop .egressClosed
  | tick now idle wanted hrun => exact h.afterLoop (.tick now idle wanted)
  | deadline now hrun hdue => exact h.afterLoop (.deadline now)
  | control now message hrun hmem => exact h.afterLoop (.control now message)
  | turn r now branch sink hrun henabled hdelivers =>
    refine ⟨h.air, forall_peers_afterTurn (P := fun r' p => Evicts p.ended →
      w.loop.group.contains r' = false) (fun hended => ?_) fun r' _ => h.peers r'⟩
    obtain ⟨arrivals, evicted, rfl, ⟨arrival, hmem, heq⟩, htarget⟩ := Session.turn_evicts hended
    rw [hids] at htarget
    rw [← htarget]
    exact h.air r evicted (heq ▸ hdelivers arrival hmem)
  | loseDown _ r arrival => exact ⟨fun r' evicted hi => h.air r' evicted (mem_air_of_lost hi), h.peers⟩
  | _ => exact ⟨h.air, h.peers⟩

/-- In every run of the whole system, whoever thinks it is evicted is out of the group, and so is
everybody a message in flight tells so; nobody comes back. -/
theorem evicted_receivers_are_out (h : Labelled.Reachable (system rs config reader) w) :
    (∀ r reason, (w.peers r).ended = some (.returned (.error (.evicted reason))) →
      w.loop.group.contains r = false) ∧
    (∀ r evicted, .control (.evicted evicted) ∈ w.air r →
      w.loop.group.contains evicted.target = false) ∧
    ∀ a w' r, next rs a w = some w' → w'.loop.group.contains r = true →
      w.loop.group.contains r = true := by
  have hagreed : w.Agreed := by
    refine h.invariant_on (J := fun w => ∀ r, (w.peers r).session.receiverId = r)
      (fun _ hw => (floors_of_reachable hw).ids) ?_ ?_
    · rintro w ⟨gathered, now, hstart⟩
      obtain ⟨-, slicer, assembler, -, -, rfl⟩ := start_eq_ok hstart
      exact ⟨by simp, fun r hended => hended.elim⟩
    · exact fun a w w' _ hids _ hw hn => hw.step hids (step_of_next hn)
  refine ⟨fun r reason hended => hagreed.peers r (by rw [hended]; trivial), hagreed.air, ?_⟩
  intro a w' r hn hcontains
  cases step_of_next hn with
  | @egress _ message rest now hrun hout =>
    exact SendLoop.contains_branch (.egress now message) hcontains
  | egressClosed hrun hempty hended => exact SendLoop.contains_branch .egressClosed hcontains
  | tick now idle wanted hrun => exact SendLoop.contains_branch (.tick now idle wanted) hcontains
  | deadline now hrun hdue => exact SendLoop.contains_branch (.deadline now) hcontains
  | control now message hrun hmem => exact SendLoop.contains_branch (.control now message) hcontains
  | _ => exact hcontains

/-- Nobody reports for longer than the timeout, and a receiver is told what becomes of it. -/
theorem evicted_receivers_are_out_silent : ∃ w reason,
    Labelled.Reachable (system .interpolated (.tiny 2) (.single [1])) w ∧
      (w.peers 1).ended = some (.returned (.error (.evicted reason))) ∧
      w.loop.group.contains 1 = false := by
  obtain ⟨w₀, hstart, w, hrun, hended⟩ : ∃ w₀,
      start (.tiny 2) (.single [1]) [.join 7 0, .join 7 1] 0 = .ok w₀ ∧ ∃ w,
      Labelled.exec (system .interpolated (.tiny 2) (.single [1]))
        [.tick (silenceTimeout + 1) false 0,
          .turn 1 0 (.packets [(0, w₀.loop.evictedMessage 1 0)]) ⟨0, false⟩] w₀ = some w ∧
        Evicts (w.peers 1).ended := by
    refine ⟨_, rfl, _, rfl, ?_⟩
    exact trivial
  obtain ⟨reason, hreason⟩ : ∃ reason,
      (w.peers 1).ended = some (.returned (.error (.evicted reason))) := by
    unfold Evicts at hended
    split at hended
    · next reason heq => exact ⟨reason, heq⟩
    · exact hended.elim
  have hreach : Labelled.Reachable (system .interpolated (.tiny 2) (.single [1])) w :=
    .exec (.start ⟨_, _, hstart⟩) hrun
  exact ⟨w, reason, hreach, hreason, (evicted_receivers_are_out hreach).1 1 reason hreason⟩

end World
end Scuttlecast
