import Scuttlecast.Sender.Membership
import Scuttlecast.Library.Labelled
import Scuttlecast.Library.Cooldown

/-! Repairs and the time between them. The group forgets which shards of a slice it has sent only
once nobody can ask for the slice any more, so what it remembers decides the holding off. -/
namespace Scuttlecast
namespace Group

/-- What the send loop does to its group. -/
inductive Call where
  | nak (now : ℕ) (nak : Nak)
  | stats (stats : Stats)
  | demand (stats : Stats)
  | join (receiverId : ℕ)
  | leave (receiverId : ℕ)
  | reap (now timeout : ℕ)
  | seen (receiverId now : ℕ)
  | emitted (slices : ℕ)
  | eof (totalSlices : ℕ)

def call (g : Group) : Call → Group
  | .nak now nak => (g.onNak nak now).2
  | .stats stats => (g.onStats stats).2
  | .demand stats => (g.repairDemand stats).2
  | .join receiverId => (g.join receiverId).2
  | .leave receiverId => (g.leave receiverId).2
  | .reap now timeout => (g.reapSilent now timeout).2
  | .seen receiverId now => g.markSeen receiverId now
  | .emitted slices => g.onEmitted slices
  | .eof totalSlices => g.onEof totalSlices

/-- The clock reading that a call is given. -/
def Call.now? : Call → Option ℕ
  | .nak now _ => some now
  | .reap now _ => some now
  | .seen _ now => some now
  | _ => none

/-- The shards that a call returns to be sent again, with the time. -/
def repairs (g : Group) : Call → List (ℕ × ℕ × ℕ)
  | .nak now nak => (g.onNak nak now).1.map fun shard => (now, nak.sliceNo, shard)
  | _ => []

variable {g g' : Group} {k now : ℕ}

theorem holdoff_pos : 0 < holdoff := by decide

/-- The shard was sent less than a holdoff ago. -/
def HeldOff (g : Group) (block : ℕ × ℕ) (now : ℕ) : Prop :=
  ∃ sent, g.suppressed.lookup block = some sent ∧ now - sent < holdoff

theorem rested_iff {block : ℕ × ℕ} : Cooldown.Rested holdoff g.suppressed.lookup now block ↔
    ¬ g.HeldOff block now := by
  have hpos := holdoff_pos
  constructor
  · rintro hrested ⟨sent, hsent, hlt⟩
    have hle := hrested sent hsent
    omega
  · intro hfree sent hsent
    by_contra hsoon
    exact hfree ⟨sent, hsent, by omega⟩

theorem suppress_cases (g : Group) (block : ℕ × ℕ) (now : ℕ) :
    g.HeldOff block now ∧ g.suppress block now = (false, g) ∨
      ¬ g.HeldOff block now ∧ g.suppress block now =
        (true, { g with suppressed := g.suppressed.insert block now }) := by
  have hheld : (g.suppressed.lookup block).any (fun sent => now - sent < holdoff) = true ↔
      g.HeldOff block now := by
    simp [HeldOff, Option.any_eq_true]
  unfold suppress
  split_ifs with h
  · exact .inl ⟨hheld.mp h, rfl⟩
  · exact .inr ⟨fun hoff => h (hheld.mpr hoff), rfl⟩

/-- What `wanted` lets through: each shard of the list that is not held off, once. Just these are
held off from now on. -/
structure LetThrough (g : Group) (k now : ℕ) (missing shards : List ℕ) (g' : Group) : Prop where
  nodup : shards.Nodup
  mem : ∀ shard, shard ∈ shards ↔ shard ∈ missing ∧ ¬ g.HeldOff (k, shard) now
  lookup : ∀ block, g'.suppressed.lookup block =
    if block.1 = k ∧ block.2 ∈ shards then some now else g.suppressed.lookup block

theorem wanted_letThrough (g : Group) (k now : ℕ) (missing : List ℕ) :
    LetThrough g k now missing (g.wanted k now missing).1 (g.wanted k now missing).2 := by
  induction missing generalizing g with
  | nil => exact ⟨List.nodup_nil, by simp [wanted], by simp [wanted]⟩
  | cons shard missing ih =>
    unfold wanted
    rcases g.suppress_cases (k, shard) now with ⟨hheld, heq⟩ | ⟨hfree, heq⟩
    · have hrest := ih g
      simp only [heq, Bool.false_eq_true, if_false]
      constructor
      · exact hrest.nodup
      · intro other
        rw [hrest.mem, List.mem_cons]
        constructor
        · exact fun ⟨hmem, hoff⟩ => ⟨.inr hmem, hoff⟩
        · rintro ⟨rfl | hmem, hoff⟩
          · exact absurd hheld hoff
          · exact ⟨hmem, hoff⟩
      · exact hrest.lookup
    · have hrest := ih { g with suppressed := g.suppressed.insert (k, shard) now }
      -- the shard just let through holds itself off for the rest of the list
      have hheld (other : ℕ) : HeldOff { g with
          suppressed := g.suppressed.insert (k, shard) now } (k, other) now ↔
            other = shard ∨ g.HeldOff (k, other) now := by
        unfold HeldOff
        rw [Table.lookup_insert']
        split_ifs with hsame
        · obtain rfl : other = shard := (Prod.mk.inj hsame).2
          have hnow : now - now < holdoff := by
            rw [Nat.sub_self]
            exact holdoff_pos
          exact ⟨fun _ => .inl rfl, fun _ => ⟨now, rfl, hnow⟩⟩
        · have hne : other ≠ shard := fun h => hsame (by rw [h])
          simp [hne]
      simp only [heq, if_true]
      constructor
      · rw [List.nodup_cons, hrest.mem, hheld]
        exact ⟨fun h => h.2 (.inl rfl), hrest.nodup⟩
      · intro other
        rw [List.mem_cons, List.mem_cons, hrest.mem, hheld]
        by_cases hother : other = shard
        · subst hother
          simpa using hfree
        · simp [hother]
      · intro block
        rw [hrest.lookup, Table.lookup_insert']
        by_cases hblock : block = (k, shard)
        · simp [hblock]
        · have hother : ¬ (block.1 = k ∧ block.2 = shard) :=
            fun h => hblock (Prod.ext h.1 h.2)
          by_cases hk : block.1 = k
          · have hne : block.2 ≠ shard := fun h => hother ⟨hk, h⟩
            simp [hblock, hk, hne]
          · simp [hblock, hk]

/-- What `on_nak` lets through, of a request that is heard. -/
theorem onNak_cases (g : Group) (nak : Nak) (now : ℕ) :
    (g.contains nak.receiverId = false ∨ nak.sliceNo < g.neededFrom) ∧
        g.onNak nak now = ([], g) ∨
      g.contains nak.receiverId = true ∧ g.neededFrom ≤ nak.sliceNo ∧
        (g.onNak nak now).2.neededFrom = g.neededFrom ∧
        LetThrough g nak.sliceNo now nak.missing (g.onNak nak now).1 (g.onNak nak now).2 := by
  rcases g.onNak_frame nak now with hrefused | ⟨hheard, hfloor, suppressed, hframe⟩
  · exact .inl hrefused
  · refine .inr ⟨hheard, hfloor, by rw [hframe], ?_⟩
    rw [onNak, if_neg (by simp [hheard, nobodyNeeds, hfloor])]
    exact ⟨(wanted_letThrough ..).nodup, (wanted_letThrough ..).mem, (wanted_letThrough ..).lookup⟩

theorem advance_lookup (g : Group) : g.neededFrom ≤ g.advance.2.neededFrom ∧
    ∀ block : ℕ × ℕ, g.advance.2.suppressed.lookup block =
      if g.advance.2.neededFrom ≤ block.1 ∨ g.advance.2.neededFrom = g.neededFrom
      then g.suppressed.lookup block else none := by
  unfold advance
  dsimp only
  split_ifs with h
  · exact ⟨le_rfl, fun block => (if_pos (.inr rfl)).symm⟩
  · refine ⟨(Nat.lt_of_not_le h).le, fun block => ?_⟩
    rw [Table.lookup_retain]
    simp only [decide_eq_true_eq]
    by_cases hblock : g.slowest ≤ block.1
    · rw [if_pos hblock, if_pos (.inl hblock)]
    · rw [if_neg hblock, if_neg (by omega)]

/-- A call other than a request returns nothing, and forgets at most what lies below a floor that
it raises. -/
theorem call_cases (g : Group) (c : Call) :
    (∃ now nak, c = .nak now nak) ∨
      g.repairs c = [] ∧ g.neededFrom ≤ (g.call c).neededFrom ∧
        ∀ block : ℕ × ℕ, (g.call c).suppressed.lookup block = g.suppressed.lookup block ∨
          block.1 < (g.call c).neededFrom ∧ (g.call c).suppressed.lookup block = none := by
  cases c with
  | nak now nak => exact .inl ⟨now, nak, rfl⟩
  | stats stats =>
    refine .inr ⟨rfl, ?_⟩
    show g.neededFrom ≤ (g.onStats stats).2.neededFrom ∧ ∀ block : ℕ × ℕ,
      (g.onStats stats).2.suppressed.lookup block = g.suppressed.lookup block ∨
        block.1 < (g.onStats stats).2.neededFrom ∧
          (g.onStats stats).2.suppressed.lookup block = none
    rcases g.onStats_cases stats with ⟨_, heq⟩ | ⟨p, _, heq⟩ <;> rw [heq]
    · exact ⟨le_rfl, fun _ => .inl rfl⟩
    · obtain ⟨hfloor, hlookup⟩ := (g.heard stats p).advance_lookup
      refine ⟨hfloor, fun block => ?_⟩
      rw [hlookup]
      split_ifs with h
      · exact .inl rfl
      · exact .inr ⟨by omega, rfl⟩
  | demand stats =>
    refine .inr ⟨rfl, ?_⟩
    show g.neededFrom ≤ (g.repairDemand stats).2.neededFrom ∧ ∀ block : ℕ × ℕ,
      (g.repairDemand stats).2.suppressed.lookup block = g.suppressed.lookup block ∨
        block.1 < (g.repairDemand stats).2.neededFrom ∧
          (g.repairDemand stats).2.suppressed.lookup block = none
    unfold repairDemand
    split <;> exact ⟨le_rfl, fun _ => .inl rfl⟩
  | _ => exact .inr ⟨rfl, le_rfl, fun _ => .inl rfl⟩

end Group

/-- A group with the last reading of the clock and all the shards that were sent again. -/
structure Desk where
  group : Group
  clock : ℕ
  returned : List (ℕ × ℕ × ℕ)

namespace Desk

/-- All sequences of calls at clock readings that never decrease. -/
def calls : Labelled.System Desk Group.Call where
  init d := d.group = .empty ∧ d.returned = []
  next c d :=
    if d.clock ≤ c.now?.getD d.clock then
      some ⟨d.group.call c, c.now?.getD d.clock, d.returned ++ d.group.repairs c⟩
    else none

variable {d d' : Desk}

/-- What is remembered of a shard is when it was last sent again, and of every shard above the
floor that was ever sent again something is remembered. -/
def Recorded (d : Desk) : Prop :=
  Cooldown.Remembers holdoff d.clock (fun block => d.group.neededFrom ≤ block.1)
    d.group.suppressed.lookup d.returned

/-- What a request lets through was last sent again a holdoff ago or more. -/
theorem Recorded.nak (h : d.Recorded) {now : ℕ} (nak : Nak) (hnow : d.clock ≤ now) :
    Recorded ⟨(d.group.onNak nak now).2, now,
      d.returned ++ d.group.repairs (.nak now nak)⟩ := by
  show Recorded ⟨(d.group.onNak nak now).2, now,
    d.returned ++ (d.group.onNak nak now).1.map fun shard => (now, nak.sliceNo, shard)⟩
  rcases d.group.onNak_cases nak now with ⟨_, heq⟩ | ⟨_, hfloor, hsame, hthrough⟩
  · rw [heq, List.map_nil, List.append_nil]
    exact h.later hnow
  generalize d.group.onNak nak now = result at hsame hthrough ⊢
  obtain ⟨shards, g'⟩ := result
  have hblocks (block : ℕ × ℕ) : block ∈ shards.map (Prod.mk nak.sliceNo) ↔
      block.1 = nak.sliceNo ∧ block.2 ∈ shards := by
    obtain ⟨k, shard⟩ := block
    simp [eq_comm, and_comm]
  have hnodup : (shards.map (Prod.mk nak.sliceNo)).Nodup :=
    hthrough.nodup.map fun _ _ heq => (Prod.mk.inj heq).2
  have hover : ∀ block ∈ shards.map (Prod.mk nak.sliceNo),
      Cooldown.Overdue holdoff d.returned now block := by
    intro block hblock
    obtain ⟨hslice, hshard⟩ := (hblocks block).mp hblock
    refine (h.rested_iff (hslice ▸ hfloor)).mp (Group.rested_iff.mpr ?_)
    have hfree := ((hthrough.mem block.2).mp hshard).2
    rwa [← hslice] at hfree
  have hgranted : Cooldown.Remembers holdoff now (fun block => d.group.neededFrom ≤ block.1)
      g'.suppressed.lookup _ := Cooldown.Remembers.grant h hnow hnodup hover
    (fun block hblock => by rw [hthrough.lookup, if_pos ((hblocks block).mp hblock)])
    (fun block hblock => by rw [hthrough.lookup, if_neg fun hin => hblock ((hblocks block).mpr hin)])
  rw [List.map_map] at hgranted
  exact hgranted.forget (fun _ _ ht => ht) fun block hle => ⟨hsame ▸ hle, rfl⟩

theorem Recorded.next (h : d.Recorded) {c : Group.Call} (hn : calls.next c d = some d') :
    d'.Recorded ∧ d.group.neededFrom ≤ d'.group.neededFrom := by
  simp only [calls] at hn
  split_ifs at hn with hclock
  rw [← Option.some.inj hn]
  rcases d.group.call_cases c with ⟨now, nak, rfl⟩ | ⟨hquiet, hfloor, hlookup⟩
  · refine ⟨h.nak nak hclock, ?_⟩
    show d.group.neededFrom ≤ (d.group.onNak nak now).2.neededFrom
    rcases d.group.onNak_cases nak now with ⟨_, heq⟩ | ⟨_, _, hsame, _⟩
    · rw [heq]
    · exact hsame.ge
  · rw [hquiet, List.append_nil]
    refine ⟨(h.later hclock).forget (fun block t ht => ?_) fun block hle => ?_, hfloor⟩
    · rcases hlookup block with heq | ⟨-, hnone⟩
      · exact heq ▸ ht
      · cases hnone.symm.trans ht
    · rcases hlookup block with heq | ⟨hlt, -⟩
      · exact ⟨hfloor.trans hle, heq⟩
      · exact absurd hle (Nat.not_le.mpr hlt)

theorem recorded_of_reachable (h : Labelled.Reachable calls d) : d.Recorded := by
  apply h.invariant
  · rintro d ⟨hgroup, hreturned⟩
    rw [Recorded, hreturned]
    exact .nil fun block => by simp [hgroup, Group.empty]
  · exact fun c d d' _ hd hn => (hd.next hn).1

/-- How the shards that are asked for are sent again. -/
structure Spaced (d : Desk) : Prop where
  apart : d.returned.Pairwise fun e e' => e.2 = e'.2 → e.1 + holdoff ≤ e'.1
  needed : ∀ now nak shard, shard ∈ (d.group.onNak nak now).1 → d.group.neededFrom ≤ nak.sliceNo
  served : ∀ now nak shard, d.clock ≤ now → d.group.contains nak.receiverId →
    d.group.neededFrom ≤ nak.sliceNo → shard ∈ nak.missing →
    (∀ e ∈ d.returned, e.2 = (nak.sliceNo, shard) → e.1 + holdoff ≤ now) →
    shard ∈ (d.group.onNak nak now).1

theorem Recorded.served (h : d.Recorded) : d.Spaced := by
  constructor
  · exact h.spaced
  · intro now nak shard hshard
    rcases d.group.onNak_cases nak now with ⟨_, heq⟩ | ⟨_, hfloor, _⟩
    · rw [heq] at hshard
      cases hshard
    · exact hfloor
  · intro now nak shard hnow hmember hfloor hmissing hrested
    rcases d.group.onNak_cases nak now with ⟨hnot | hlt, _⟩ | ⟨_, _, _, hthrough⟩
    · rw [hmember] at hnot
      cases hnot
    · omega
    · exact (hthrough.mem shard).mpr
        ⟨hmissing, Group.rested_iff.mp ((h.rested_iff hfloor).mpr hrested)⟩

/-- Whoever asks, joins or leaves, and whatever is reported: the same shard is sent again at times
a holdoff apart or more, never of a slice below the floor, and otherwise whenever a participant
asks; and the floor never goes down. -/
theorem repairs_are_spaced (h : Labelled.Reachable calls d) :
    d.Spaced ∧ ∀ taken d', Labelled.exec calls taken d = some d' →
      d.group.neededFrom ≤ d'.group.neededFrom := by
  refine ⟨(recorded_of_reachable h).served, fun taken d' he => ?_⟩
  have hboth : d'.Recorded ∧ d.group.neededFrom ≤ d'.group.neededFrom := by
    apply Labelled.exec_induction (I := fun _ d' => d'.Recorded ∧
      d.group.neededFrom ≤ d'.group.neededFrom) ⟨recorded_of_reachable h, le_rfl⟩ ?_ he
    intro _ c t t' _ ⟨ht, hle⟩ hn
    obtain ⟨ht', hle'⟩ := ht.next hn
    exact ⟨ht', hle.trans hle'⟩
  exact hboth.2

/-- Two receivers ask for the same shard, the second one twice, and later again. -/
theorem repairs_are_spaced_twice : ∃ d, Labelled.Reachable calls d ∧
    d.returned = [(0, 3, 1), (holdoff, 3, 1)] ∧ d.Spaced := by
  let ask (now id : ℕ) : Group.Call := .nak now ⟨7, id, 3, [1, 1]⟩
  obtain ⟨d, hrun, hreturned⟩ : ∃ d, Labelled.exec calls [.join 1, .join 2, ask 0 1, ask 5 2,
      ask (holdoff - 1) 2, ask holdoff 1] ⟨.empty, 0, []⟩ = some d ∧
        d.returned = [(0, 3, 1), (holdoff, 3, 1)] := by
    refine ⟨_, rfl, ?_⟩
    decide
  have hreach : Labelled.Reachable calls d := .exec (.start ⟨rfl, rfl⟩) hrun
  exact ⟨d, hreach, hreturned, (repairs_are_spaced hreach).1⟩

end Desk
end Scuttlecast
