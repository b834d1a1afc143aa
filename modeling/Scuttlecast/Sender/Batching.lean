import Scuttlecast.Sender.Holdoff
import Scuttlecast.Sender.Rate
import Scuttlecast.Proto.Frame

/-! When frames are batched. Ticks count clean observations of the worst loss, and that loss stays
what it is from one report to the next, so a tick can count a window another has counted. -/
namespace Scuttlecast

abbrev cleanWindowsNeeded : ℕ := 3

structure Batching where
  cleanWindows : ℕ
  gaveUp : Bool
  deriving DecidableEq, Repr

namespace Batching

def new : Batching := ⟨0, false⟩

def observe (b : Batching) : Option ℚ → Except Panic Batching
  | none => .ok b
  | some loss =>
    if repairThreshold < loss then .ok ⟨0, true⟩
    else do
      let cleanWindows ← addChecked 32 b.cleanWindows 1
      .ok { b with cleanWindows := cleanWindows }

def segments (b : Batching) (uncapped : ℕ) : ℕ :=
  if b.gaveUp ∨ b.cleanWindows < cleanWindowsNeeded then 1 else uncapped

/-- More than one segment takes three clean observations, and no lossy one. -/
theorem of_one_lt_segments {b : Batching} {uncapped : ℕ} (h : 1 < b.segments uncapped) :
    b.gaveUp = false ∧ cleanWindowsNeeded ≤ b.cleanWindows := by
  unfold segments at h
  split_ifs at h with hone
  · exact absurd h (lt_irrefl 1)
  · rw [not_or, Bool.not_eq_true, Nat.not_lt] at hone
    exact hone

end Batching

/-- Some participant's measured loss is above the threshold. -/
def Group.lossy (g : Group) : Bool := g.worstLoss.any fun loss => repairThreshold < loss

/-- How many windows a call closes. -/
def Group.closes (g : Group) : Group.Call → ℕ
  | .demand stats => if (g.repairDemand stats).1.isSome then 1 else 0
  | _ => 0

/-- The group, the batching of the send loop and its batch. Along with them, how many windows were
closed since a participant's loss was last above the threshold, the most there have been at once,
and whether a tick has seen such a loss. -/
structure Widening where
  group : Group
  batching : Batching
  batch : FrameBatch
  streak : ℕ
  best : ℕ
  sawLoss : Bool

namespace Widening

inductive Act where
  | call (c : Group.Call)
  | tick

def next (maxBatchSegments : ℕ) : Act → Widening → Option Widening
  | .call c, s =>
    let group := s.group.call c
    let streak := if group.lossy then 0 else s.streak + s.group.closes c
    some { s with group := group, streak := streak, best := max s.best streak }
  | .tick, s =>
    match s.batching.observe s.group.worstLoss with
    | .ok batching =>
      some { s with batching := batching
                    batch := s.batch.narrowTo (batching.segments maxBatchSegments)
                    sawLoss := s.sawLoss || s.group.lossy }
    | .error _ => none

/-- Calls on the group and ticks, in any order. -/
def acts (maxBatchSegments : ℕ) : Labelled.System Widening Act where
  init s := ∃ blockSize, s =
    { group := .empty
      batching := .new
      batch := (FrameBatch.new blockSize maxBatchSegments).narrowTo
        (Batching.new.segments maxBatchSegments)
      streak := 0
      best := 0
      sawLoss := false }
  next := next maxBatchSegments

/-- While batching is still to be earned, a tick that finds no loss above the threshold finds more
windows closed, since there last was one, than ticks have counted. -/
def Fresh : Act → Widening → Prop
  | .call _, _ => True
  | .tick, s => s.batching.gaveUp = false → s.batching.cleanWindows < cleanWindowsNeeded →
      s.group.worstLoss.isSome → s.group.lossy = false → s.batching.cleanWindows < s.streak

/-- Three windows or more were closed with no loss above the threshold in between, and no tick has
seen such a loss. -/
def Earned (s : Widening) : Prop := cleanWindowsNeeded ≤ s.best ∧ s.sawLoss = false

variable {maxBatchSegments : ℕ} {s s' : Widening} {a : Act}

/-- What a tick comes to: nothing measured, a loss, or one more clean observation. -/
theorem tick_cases (hn : (acts maxBatchSegments).next .tick s = some s') :
    ∃ batching, s' = { s with
        batching := batching
        batch := s.batch.narrowTo (batching.segments maxBatchSegments)
        sawLoss := s.sawLoss || s.group.lossy } ∧
      (s.group.worstLoss = none ∧ s.group.lossy = false ∧ batching = s.batching ∨
        s.group.lossy = true ∧ batching = ⟨0, true⟩ ∨
        s.group.worstLoss.isSome ∧ s.group.lossy = false ∧
          batching = { s.batching with cleanWindows := s.batching.cleanWindows + 1 }) := by
  simp only [acts, next] at hn
  split at hn
  next batching hobserve =>
    cases hn
    refine ⟨batching, rfl, ?_⟩
    unfold Group.lossy
    rcases hworst : s.group.worstLoss with _ | loss <;> rw [hworst] at hobserve
    · cases hobserve
      exact .inl ⟨rfl, rfl, rfl⟩
    · unfold Batching.observe at hobserve
      dsimp only at hobserve
      split_ifs at hobserve with hlossy
      · cases hobserve
        exact .inr (.inl ⟨by simpa using hlossy, rfl⟩)
      · obtain ⟨cleanWindows, hsum, hobserve⟩ := bind_ok_iff.mp hobserve
        obtain ⟨-, rfl⟩ := addChecked_eq_ok.mp hsum
        cases hobserve
        exact .inr (.inr ⟨rfl, by simpa using hlossy, rfl⟩)
  next => cases hn

/-- A tick that saw a loss gave up, and only such a tick; and what the batch is narrowed to is what
the batching says. -/
structure Consistent (maxBatchSegments : ℕ) (s : Widening) : Prop where
  gaveUp : s.batching.gaveUp = s.sawLoss
  limit : 1 < s.batch.limit → 1 < s.batching.segments maxBatchSegments
  streak_le : s.streak ≤ s.best

theorem one_lt_limit_narrowTo {b : FrameBatch} {segments : ℕ}
    (h : 1 < (b.narrowTo segments).limit) : 1 < segments := by
  unfold FrameBatch.narrowTo at h
  dsimp only at h
  omega

theorem Consistent.next (h : s.Consistent maxBatchSegments)
    (hn : (acts maxBatchSegments).next a s = some s') : s'.Consistent maxBatchSegments := by
  cases a with
  | call c =>
    cases hn
    exact ⟨h.gaveUp, h.limit, le_max_right ..⟩
  | tick =>
    obtain ⟨batching, rfl, hcases⟩ := tick_cases hn
    refine ⟨?_, one_lt_limit_narrowTo, h.streak_le⟩
    rcases hcases with ⟨-, hclean, rfl⟩ | ⟨hlossy, rfl⟩ | ⟨-, hclean, rfl⟩
    · simp [hclean, h.gaveUp]
    · simp [hlossy]
    · simp [hclean, h.gaveUp]

theorem consistent_of_reachable (h : Labelled.Reachable (acts maxBatchSegments) s) :
    s.Consistent maxBatchSegments := by
  apply h.invariant
  · rintro s ⟨blockSize, rfl⟩
    exact ⟨rfl, one_lt_limit_narrowTo, le_rfl⟩
  · intro a s s' _ hs hn
    exact hs.next hn

/-- Once a tick has seen a loss above the threshold, frames go out one by one for good. -/
theorem single_once_lossy (h : Labelled.Reachable (acts maxBatchSegments) s)
    (hloss : s.sawLoss = true) (uncapped : ℕ) :
    s.batching.segments uncapped = 1 ∧ s.batch.limit ≤ 1 := by
  have hs := consistent_of_reachable h
  have hone (uncapped : ℕ) : s.batching.segments uncapped = 1 := by
    rw [Batching.segments, if_pos (.inl (hs.gaveUp.trans hloss))]
  refine ⟨hone uncapped, ?_⟩
  by_contra hlimit
  have hmany := hs.limit (Nat.lt_of_not_le hlimit)
  rw [hone] at hmany
  exact absurd hmany (lt_irrefl 1)

/-- What has been counted was closed, as far as it matters. -/
theorem counted_le_best (h : Labelled.Reach (acts maxBatchSegments) Fresh s)
    (hopen : s.batching.gaveUp = false) :
    min s.batching.cleanWindows cleanWindowsNeeded ≤ s.best := by
  revert hopen
  apply h.invariant_on (I := fun s => s.batching.gaveUp = false →
    min s.batching.cleanWindows cleanWindowsNeeded ≤ s.best) fun _ => consistent_of_reachable
  · rintro s ⟨blockSize, rfl⟩ _
    exact Nat.zero_le _
  · intro a s s' hfresh hs _ ih hn hopen
    cases a with
    | call c =>
      cases hn
      exact (ih hopen).trans (le_max_left ..)
    | tick =>
      obtain ⟨batching, rfl, hcases⟩ := tick_cases hn
      rcases hcases with ⟨-, -, rfl⟩ | ⟨-, rfl⟩ | ⟨hsome, hclean, rfl⟩
      · exact ih hopen
      · cases hopen
      · have hcounted := ih hopen
        have hstreak := hs.streak_le
        have hnew := fun hlt => hfresh hopen hlt hsome hclean
        simp only at hcounted ⊢
        omega

/-- In every run whose ticks count only windows that were not counted before, until batching is
earned: frames are batched only after three windows or more were closed with no loss above the
threshold in between, and never once a tick has seen such a loss. -/
theorem batching_is_earned (h : Labelled.Reach (acts maxBatchSegments) Fresh s) (uncapped : ℕ) :
    (1 < s.batching.segments uncapped → s.Earned) ∧ (1 < s.batch.limit → s.Earned) := by
  have hs := consistent_of_reachable h.reachable
  have hearned {uncapped : ℕ} (hmany : 1 < s.batching.segments uncapped) : s.Earned := by
    obtain ⟨hopen, hneeded⟩ := Batching.of_one_lt_segments hmany
    have hbest := counted_le_best h hopen
    rw [Nat.min_eq_right hneeded] at hbest
    exact ⟨hbest, hs.gaveUp.symm.trans hopen⟩
  exact ⟨hearned, fun hlimit => hearned (hs.limit hlimit)⟩

/-- A participant joins, and its receiver reports twice two hundred transmissions apart as often as
windows are to be closed, none of them with a loss. -/
def closing (windows : ℕ) : List Act :=
  .call (.join 1) :: (List.range (windows + 1)).map fun i =>
    .call (.demand ⟨7, 1, i * minLossSample, i * minLossSample, 0, 0⟩)

theorem reach_closing {windows : ℕ} {s₀ : Widening} (h₀ : (acts maxBatchSegments).init s₀)
    (he : Labelled.exec (acts maxBatchSegments) (closing windows) s₀ = some s) :
    Labelled.Reach (acts maxBatchSegments) Fresh s := by
  apply (Labelled.Reach.start h₀ : Labelled.Reach _ Fresh s₀).exec_of_ok ?_ he
  intro a ha s
  rcases List.mem_cons.mp ha with rfl | ha
  · trivial
  · obtain ⟨i, -, rfl⟩ := List.mem_map.mp ha
    trivial

/-- A tick that finds no loss at all counts it. -/
theorem next_tick_clean (maxBatchSegments : ℕ) (hworst : s.group.worstLoss = some 0)
    (hlt : s.batching.cleanWindows + 1 < 2 ^ 32) :
    ∃ s', (acts maxBatchSegments).next .tick s = some s' ∧ s'.group = s.group ∧
      s'.batching = { s.batching with cleanWindows := s.batching.cleanWindows + 1 } ∧
      s'.streak = s.streak ∧ s'.best = s.best := by
  have hclean : ¬ repairThreshold < 0 := by norm_num
  have hobserve : s.batching.observe s.group.worstLoss =
      .ok { s.batching with cleanWindows := s.batching.cleanWindows + 1 } := by
    rw [hworst]
    simp [Batching.observe, hclean, addChecked_of_lt hlt]
  obtain ⟨batching, hbatching⟩ : ∃ batching : Batching,
      batching = { s.batching with cleanWindows := s.batching.cleanWindows + 1 } := ⟨_, rfl⟩
  rw [← hbatching] at hobserve ⊢
  refine ⟨{ s with
    batching := batching
    batch := s.batch.narrowTo (batching.segments maxBatchSegments)
    sawLoss := s.sawLoss || s.group.lossy }, ?_, rfl, rfl, rfl, rfl⟩
  simp only [acts, next, hobserve]

/-- So many ticks in a row count as many times. -/
theorem reach_ticks {ok : Act → Widening → Prop} (h : Labelled.Reach (acts maxBatchSegments) ok s)
    (hworst : s.group.worstLoss = some 0) (hnew : s.batching = .new) (n : ℕ) (hn : n < 2 ^ 32)
    (hok : ∀ t : Widening, t.streak = s.streak → t.batching.cleanWindows < n → ok .tick t) :
    ∃ t, Labelled.Reach (acts maxBatchSegments) ok t ∧ t.group = s.group ∧
      t.batching = ⟨n, false⟩ ∧ t.streak = s.streak ∧ t.best = s.best := by
  induction n with
  | zero => exact ⟨s, h, rfl, hnew, rfl, rfl⟩
  | succ n ih =>
    obtain ⟨t, ht, hgroup, hbatching, hstreak, hbest⟩ :=
      ih (by omega) fun t hstreak hlt => hok t hstreak (Nat.lt_succ_of_lt hlt)
    have hcount : t.batching.cleanWindows = n := by rw [hbatching]
    obtain ⟨t', hnext, hgroup', hbatching', hstreak', hbest'⟩ :=
      next_tick_clean maxBatchSegments (hgroup ▸ hworst) (hcount ▸ hn)
    refine ⟨t', ht.step (hok t hstreak (by omega)) hnext, hgroup'.trans hgroup, ?_,
      hstreak'.trans hstreak, hbest'.trans hbest⟩
    rw [hbatching', hbatching]

/-- The windows of `closing` are all counted as closed, and their loss is none. -/
theorem exec_closing (windows : ℕ) (h : windows = 1 ∨ windows = 3) :
    ∃ s₀ s, (acts 44).init s₀ ∧ Labelled.exec (acts 44) (closing windows) s₀ = some s ∧
      s.group.worstLoss = some 0 ∧ s.batching = .new ∧ s.streak = windows ∧ s.best = windows := by
  obtain ⟨s₀, h₀, hclosed⟩ : ∃ s₀, (acts 44).init s₀ ∧
      (Labelled.exec (acts 44) (closing windows) s₀).map
        (fun s => (s.group.worstLoss, s.batching, s.streak, s.best)) =
      some (some 0, .new, windows, windows) := by
    refine ⟨_, ⟨2, rfl⟩, ?_⟩
    rcases h with rfl | rfl <;> decide +kernel
  obtain ⟨s, he, hs⟩ := Option.map_eq_some_iff.mp hclosed
  simp only [Prod.mk.injEq] at hs
  exact ⟨s₀, s, h₀, he, hs⟩

/-- After one window, three ticks count it three times. -/
theorem one_window_is_counted_thrice : ∃ s, Labelled.Reachable (acts 44) s ∧
    1 < s.batching.segments 44 ∧ s.best = 1 ∧ ¬ s.Earned := by
  obtain ⟨s₀, s, h₀, he, hworst, hnew, -, hbest⟩ := exec_closing 1 (.inl rfl)
  obtain ⟨t, ht, -, hbatching, -, hbest'⟩ :=
    reach_ticks (reach_closing h₀ he).reachable hworst hnew 3 (by decide) fun _ _ _ => trivial
  refine ⟨t, ht, ?_, hbest'.trans hbest, fun hearned => ?_⟩
  · rw [hbatching]
    decide
  · have hthree := hearned.1
    rw [hbest', hbest] at hthree
    exact absurd hthree (by decide)

/-- After three windows, three ticks count one each. -/
theorem batching_is_earned_three : ∃ s, Labelled.Reach (acts 44) Fresh s ∧
    1 < s.batching.segments 44 ∧ s.Earned := by
  obtain ⟨s₀, s, h₀, he, hworst, hnew, hstreak, -⟩ := exec_closing 3 (.inr rfl)
  obtain ⟨t, ht, -, hbatching, -⟩ := reach_ticks (reach_closing h₀ he) hworst hnew 3 (by decide)
    fun t hsame hlt _ _ _ _ => by rw [hsame, hstreak]; exact hlt
  have hmany : 1 < t.batching.segments 44 := by
    rw [hbatching]
    decide
  exact ⟨t, ht, hmany, (batching_is_earned ht 44).1 hmany⟩

end Widening
end Scuttlecast
