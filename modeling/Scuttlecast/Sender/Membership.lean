import Scuttlecast.Sender.Loop

/-! What the group believes of its receivers against where they are: no report counts for more
than its receiver has, and the floor stays at or below every participant. -/
namespace Scuttlecast

namespace Group

variable {g g' : Group} {reached reached' : ℕ → ℕ}

/-- Every participant is at or past its last report, and at or past the floor. -/
def Behind (g : Group) (reached : ℕ → ℕ) : Prop :=
  ∀ id p, g.participants.lookup id = some p →
    p.nextNeeded ≤ reached id ∧ g.neededFrom ≤ reached id

/-- The same floor, and no participant or report that was not there. -/
structure Narrows (g g' : Group) : Prop where
  floor : g'.neededFrom = g.neededFrom
  lookup : ∀ id p', g'.participants.lookup id = some p' →
    ∃ p, g.participants.lookup id = some p ∧ p'.nextNeeded = p.nextNeeded

theorem Narrows.refl (g : Group) : Narrows g g := ⟨rfl, fun _ p h => ⟨p, h, rfl⟩⟩

theorem Behind.narrows (h : g.Behind reached) (hn : Narrows g g') : g'.Behind reached := by
  intro id p' hp'
  obtain ⟨p, hp, heq⟩ := hn.lookup id p' hp'
  rw [heq, hn.floor]
  exact h id p hp

theorem Behind.mono (h : g.Behind reached) (hle : ∀ id, reached id ≤ reached' id) :
    g.Behind reached' :=
  fun id p hp => ⟨(h id p hp).1.trans (hle id), (h id p hp).2.trans (hle id)⟩

theorem narrows_mapValues {f : Participant → Participant}
    (hp : g'.participants = g.participants.mapValues f) (hn : g'.neededFrom = g.neededFrom)
    (hf : ∀ p, (f p).nextNeeded = p.nextNeeded) : Narrows g g' := by
  refine ⟨hn, fun id p' hlook => ?_⟩
  rw [hp, Table.lookup_mapValues, Option.map_eq_some_iff] at hlook
  obtain ⟨p, hmem, rfl⟩ := hlook
  exact ⟨p, hmem, hf p⟩

theorem narrows_modify {f : Participant → Participant} {k : ℕ}
    (hp : g'.participants = g.participants.modify k f) (hn : g'.neededFrom = g.neededFrom)
    (hf : ∀ p, (f p).nextNeeded = p.nextNeeded) : Narrows g g' := by
  refine ⟨hn, fun id p' hlook => ?_⟩
  rw [hp, Table.lookup_modify_eq_some] at hlook
  obtain ⟨p, hmem, rfl⟩ := hlook
  refine ⟨p, hmem, ?_⟩
  split_ifs
  · exact hf p
  · rfl

theorem markAllSeen_narrows (g : Group) (now : ℕ) : Narrows g (g.markAllSeen now) :=
  narrows_mapValues (f := fun p => { p with lastSeen := some now }) rfl rfl fun _ => rfl

theorem markSeen_narrows (g : Group) (id now : ℕ) : Narrows g (g.markSeen id now) :=
  narrows_modify rfl rfl fun _ => rfl

theorem onEof_narrows (g : Group) (totalSlices : ℕ) : Narrows g (g.onEof totalSlices) :=
  narrows_mapValues (f := fun p => { p with reachedEnd := false }) rfl rfl fun _ => rfl

theorem onEmitted_narrows (g : Group) (slices : ℕ) : Narrows g (g.onEmitted slices) :=
  ⟨rfl, fun _ p h => ⟨p, h, rfl⟩⟩

theorem leave_narrows (g : Group) (id : ℕ) : Narrows g (g.leave id).2 := by
  refine ⟨rfl, fun id' p' hlook => ?_⟩
  rw [leave, Table.lookup_erase'] at hlook
  split_ifs at hlook
  exact ⟨p', hlook, rfl⟩

theorem reapSilent_narrows (g : Group) (now timeout : ℕ) :
    Narrows g (g.reapSilent now timeout).2 := by
  refine ⟨rfl, fun id p' hlook => ?_⟩
  rw [reapSilent, Table.lookup_eraseAll] at hlook
  split_ifs at hlook
  exact ⟨p', hlook, rfl⟩

theorem report_nextNeeded (p : Participant) (stats : Stats) :
    (p.report stats).2.nextNeeded = p.nextNeeded := by
  unfold Participant.report
  dsimp only
  split
  · rfl
  · split_ifs <;> rfl

theorem repairDemand_narrows (g : Group) (stats : Stats) :
    Narrows g (g.repairDemand stats).2 := by
  unfold repairDemand
  split
  · exact .refl g
  · next p hp =>
    refine ⟨rfl, fun id p' hlook => ?_⟩
    dsimp only at hlook
    rw [Table.lookup_insert'] at hlook
    split_ifs at hlook with hid
    · rw [← Option.some.inj hlook, report_nextNeeded, hid]
      exact ⟨p, hp, rfl⟩
    · exact ⟨p', hlook, rfl⟩

theorem wanted_frame (g : Group) (sliceNo now : ℕ) (missing : List ℕ) :
    ∃ suppressed, (g.wanted sliceNo now missing).2 = { g with suppressed := suppressed } := by
  induction missing generalizing g with
  | nil => exact ⟨g.suppressed, rfl⟩
  | cons shard missing ih =>
    unfold wanted suppress
    split_ifs
    · exact ih g
    · exact ih { g with suppressed := g.suppressed.insert (sliceNo, shard) now }

/-- What a request can do to the group: nothing, or to be counted on the participant it is from
and to have blocks remembered as sent. -/
theorem onNak_frame (g : Group) (nak : Nak) (now : ℕ) :
    (g.contains nak.receiverId = false ∨ nak.sliceNo < g.neededFrom) ∧
        g.onNak nak now = ([], g) ∨
      g.contains nak.receiverId = true ∧ g.neededFrom ≤ nak.sliceNo ∧
        ∃ suppressed, (g.onNak nak now).2 = { g with
          participants := g.participants.modify nak.receiverId fun p =>
            { p with naks := p.naks + 1
                     shardsRequested := p.shardsRequested + nak.missing.length }
          suppressed := suppressed } := by
  unfold onNak
  split_ifs with h
  · refine .inl ⟨?_, rfl⟩
    simpa [nobodyNeeds] using h
  · simp only [nobodyNeeds, decide_eq_true_eq, not_or, not_not, Nat.not_lt] at h
    exact .inr ⟨h.1, h.2, wanted_frame _ _ _ _⟩

theorem onNak_narrows (g : Group) (nak : Nak) (now : ℕ) : Narrows g (g.onNak nak now).2 := by
  rcases g.onNak_frame nak now with ⟨-, heq⟩ | ⟨-, -, suppressed, heq⟩ <;> rw [heq]
  · exact .refl g
  · exact narrows_modify rfl rfl fun _ => rfl

theorem slowest_le {id : ℕ} {p : Participant} (h : g.participants.lookup id = some p) :
    g.slowest ≤ p.nextNeeded := by
  have hmem : p.nextNeeded ∈ g.participants.values.map (·.nextNeeded) :=
    List.mem_map_of_mem (Table.mem_values.mpr ⟨id, h⟩)
  unfold slowest
  rcases hmin : (g.participants.values.map (·.nextNeeded)).min? with _ | least
  · rw [List.min?_eq_none_iff] at hmin
    simp [hmin] at hmem
  · rw [hmin]
    exact (List.min?_eq_some_iff.mp hmin).2 _ hmem

/-- The floor moves up to the slowest report, and what is announced is the floor. -/
theorem advance_cases (g : Group) :
    g.advance = (none, g) ∨ g.neededFrom < g.slowest ∧ ∃ suppressed,
      g.advance = (some g.slowest, { g with neededFrom := g.slowest, suppressed := suppressed }) := by
  unfold advance
  dsimp only
  split_ifs with h
  · exact .inl rfl
  · exact .inr ⟨Nat.lt_of_not_le h, _, rfl⟩

theorem Behind.advance (h : g.Behind reached) : g.advance.2.Behind reached := by
  rcases g.advance_cases with heq | ⟨_, suppressed, heq⟩
  · rw [heq]
    exact h
  · rw [heq]
    intro id p hp
    have hslow : g.slowest ≤ p.nextNeeded := slowest_le hp
    exact ⟨(h id p hp).1, hslow.trans (h id p hp).1⟩

/-- The group with a report of `p` entered, before the floor moves. -/
def heard (g : Group) (stats : Stats) (p : Participant) : Group :=
  let reachedEnd := g.totalSlices.any fun totalSlices => totalSlices ≤ stats.nextNeededSlice
  let p := { p with nextNeeded := stats.nextNeededSlice, reachedEnd := reachedEnd }
  { g with participants := g.participants.insert stats.receiverId p }

theorem onStats_cases (g : Group) (stats : Stats) :
    g.participants.lookup stats.receiverId = none ∧ g.onStats stats = (none, g) ∨
      ∃ p, g.participants.lookup stats.receiverId = some p ∧
        g.onStats stats = (g.heard stats p).advance := by
  unfold onStats
  rcases hp : g.participants.lookup stats.receiverId with _ | p
  · exact .inl ⟨rfl, rfl⟩
  · exact .inr ⟨p, rfl, rfl⟩

/-- A report of no more than its receiver has. -/
theorem Behind.onStats (h : g.Behind reached) {stats : Stats}
    (hs : stats.nextNeededSlice ≤ reached stats.receiverId) :
    (g.onStats stats).2.Behind reached := by
  rcases g.onStats_cases stats with ⟨_, heq⟩ | ⟨p, hp, heq⟩ <;> rw [heq]
  · exact h
  · apply Behind.advance
    intro id p' hlook
    rw [heard, Table.lookup_insert'] at hlook
    split_ifs at hlook with hid
    · rw [← Option.some.inj hlook, hid]
      exact ⟨hs, (h _ p hp).2⟩
    · exact h id p' hlook

theorem onStats_floor (g : Group) (stats : Stats) :
    g.neededFrom ≤ (g.onStats stats).2.neededFrom ∧
      ∀ v ∈ (g.onStats stats).1, v = (g.onStats stats).2.neededFrom := by
  rcases g.onStats_cases stats with ⟨_, heq⟩ | ⟨p, _, heq⟩
  · simp [heq]
  · have hfloor : (g.heard stats p).neededFrom = g.neededFrom := rfl
    rcases (g.heard stats p).advance_cases with hadv | ⟨hlt, suppressed, hadv⟩ <;>
      rw [heq, hadv]
    · simp [hfloor]
    · exact ⟨hfloor ▸ hlt.le, fun v hv => (Option.some.inj hv).symm⟩

/-- What holds of the empty group and survives joins and leaves holds once gathering is over. -/
theorem gather_induction {I : Group → Prop} (h0 : I .empty)
    (hjoin : ∀ g id, I g → I (g.join id).2) (hleave : ∀ g id, I g → I (g.leave id).2)
    (messages : List Message) : I (SendLoop.gather messages) := by
  refine List.foldlRecOn messages _ h0 fun g hg message _ => ?_
  cases message with
  | join _ id => exact hjoin g id hg
  | leave _ id => exact hleave g id hg
  | _ => exact hg

/-- Nobody who has just joined is behind anything. -/
theorem gather_behind (messages : List Message) (reached : ℕ → ℕ) :
    (SendLoop.gather messages).Behind reached ∧ (SendLoop.gather messages).neededFrom = 0 := by
  have hgather : (∀ id p, (SendLoop.gather messages).participants.lookup id = some p →
      p.nextNeeded = 0) ∧ (SendLoop.gather messages).neededFrom = 0 := by
    refine gather_induction (I := fun g => (∀ id p, g.participants.lookup id = some p →
      p.nextNeeded = 0) ∧ g.neededFrom = 0) ⟨by simp [empty], rfl⟩ ?_ ?_ messages
    · refine fun g id hg => ⟨fun id' p hlook => ?_, hg.2⟩
      rw [join, Table.lookup_insert'] at hlook
      split_ifs at hlook
      · rw [← Option.some.inj hlook]
        rfl
      · exact hg.1 id' p hlook
    · refine fun g id hg => ⟨fun id' p hlook => ?_, hg.2⟩
      obtain ⟨p', hp', heq⟩ := (leave_narrows g id).lookup id' p hlook
      rw [heq, hg.1 id' p' hp']
  obtain ⟨hzero, hfloor⟩ := hgather
  refine ⟨fun id p hp => ⟨(hzero id p hp).trans_le (Nat.zero_le _), ?_⟩, hfloor⟩
  exact hfloor.trans_le (Nat.zero_le _)

end Group

end Scuttlecast
