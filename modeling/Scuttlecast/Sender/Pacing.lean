import Scuttlecast.Sender.Rate
import Scuttlecast.Sender.Pacer

/-! How the send loop paces itself: every round refills the pacer at the controller's rate and
works out how long to wait for the next shard, and ticks and reports move the rate. -/
namespace Scuttlecast

/-- `MIB`, over the default block size. -/
def blocksPerSecond (mibPerSecond : ℚ) : ℚ := mibPerSecond * (1024 * 1024) / 1452

theorem blocksPerSecond_pos {mib : ℚ} : 0 < blocksPerSecond mib ↔ 0 < mib := by
  rw [blocksPerSecond, mul_div_assoc]
  exact mul_pos_iff_of_pos_right (by norm_num)

structure Pacing where
  controller : RateController
  pacer : Pacer
  drainLimit : ℕ

namespace Pacing

/-- What the `select!` of a round comes to, as far as pacing goes: messages taken off the queue,
some of them shards, with or without others left behind; the wait for credit at its end; a tick; a
report with its demand; anything else. -/
inductive Branch where
  | taken (messages shards : ℕ) (left : Bool)
  | slept (left : Bool)
  | tick
  | report (alpha : ℚ) (id : ℕ) (demand : ℚ)
  | other

/-- A round: the time at the top of the loop, and when it came to which branch. -/
structure Turn where
  top : ℕ
  now : ℕ
  branch : Branch

def new (maxRate : Option ℚ) (now drainLimit : ℕ) : Pacing :=
  ⟨RateController.new.cappedAt maxRate, .new (seconds now), drainLimit⟩

def refilled (s : Pacing) (top : ℕ) : Pacer := s.pacer.refill (seconds top) s.controller.rate

def budget (s : Pacing) (top : ℕ) : ℕ := min (s.refilled top).budget s.drainLimit

/-- The guards of the branches, and what `recv_many` can return. -/
def Enabled (s : Pacing) (t : Turn) : Prop :=
  match t.branch with
  | .taken messages shards _ => 0 < messages ∧ messages ≤ s.budget t.top ∧ shards ≤ messages
  | .slept _ => s.budget t.top = 0
  | _ => True

instance (s : Pacing) (t : Turn) : Decidable (s.Enabled t) := by
  unfold Enabled
  split <;> infer_instance

def turn (s : Pacing) (t : Turn) : Except Panic Pacing := do
  let pacer := s.refilled t.top
  let credit := pacer.budget
  let _untilCredit ← pacer.timeUntilCredit s.controller.rate
  match t.branch with
  | .taken messages shards left =>
    let pacer := if credit ≤ s.drainLimit ∧ messages = credit ∧ left then pacer.markWaited else pacer
    .ok { s with pacer := Pacer.consume^[shards] pacer }
  | .slept left => .ok { s with pacer := if left then pacer.markWaited else pacer }
  | .tick =>
    let (starved, pacer) := pacer.takeStarvation
    let controller ← s.controller.tick t.now starved
    .ok { s with controller := controller, pacer := pacer }
  | .report alpha id demand =>
    .ok { s with controller := s.controller.onReport t.now alpha id demand, pacer := pacer }
  | .other => .ok { s with pacer := pacer }

/-- The rounds of a transfer with this maximum. -/
def loop (maxRate : Option ℚ) : Labelled.System Pacing Turn where
  init s := ∃ now drainLimit, s = new maxRate now drainLimit
  next t s := if s.Enabled t then (s.turn t).toOption else none

/-- Demands are fractions, and the weight of a moving average is one too. -/
def Fractions (t : Turn) (_ : Pacing) : Prop :=
  match t.branch with
  | .report alpha _ demand => (0 ≤ alpha ∧ alpha < 1) ∧ 0 ≤ demand ∧ demand ≤ 1
  | _ => True

/-- The rate is positive, and whenever the loop comes to its top the wait for credit is either none
at all or a finite time not below zero. -/
structure Sound (s : Pacing) : Prop where
  rate_pos : 0 < s.controller.rate
  waits : ∀ top, 1 - (s.refilled top).credit ≤ 0 ∨
    ∃ secs, quotient (1 - (s.refilled top).credit) s.controller.rate = some secs ∧ 0 ≤ secs

variable {s s' : Pacing} {t : Turn} {maxRate : Option ℚ}

theorem next_loop : (loop maxRate).next t s = some s' ↔ s.Enabled t ∧ s.turn t = .ok s' := by
  unfold loop
  dsimp only
  split_ifs with h
  · simp [h, toOption_eq_some]
  · simp [h]

theorem sound_of_rate_pos (h : 0 < s.controller.rate) : s.Sound := by
  constructor
  · exact h
  · intro top
    rcases le_or_gt (1 - (s.refilled top).credit) 0 with hwanted | hwanted
    · exact .inl hwanted
    · exact .inr ⟨_, if_neg h.ne', div_nonneg hwanted.le h.le⟩

/-- Growth from a positive rate under a positive maximum, if there is one, ends at a positive
rate; backing off ends no lower than the floor. -/
theorem rate_pos_of_tick {c c' : RateController} {now : ℕ} {rateLimited : Bool}
    (hceiling : ∀ ceiling ∈ c.ceiling, 0 < ceiling) (hpos : 0 < c.rate)
    (htick : c.tick now rateLimited = .ok c') : 0 < c'.rate ∧ c'.ceiling = c.ceiling := by
  unfold RateController.tick at htick
  split at htick
  next => cases htick; exact ⟨hpos, rfl⟩
  next worst hworst =>
    split_ifs at htick
    · cases htick
      unfold RateController.backOff
      split_ifs
      · constructor
        · exact lt_max_of_lt_right (by norm_num)
        · rfl
      · exact ⟨hpos, rfl⟩
    · obtain ⟨goodTicks, -, htick⟩ := bind_ok_iff.mp htick
      have hgrown (c : RateController) (hpos : 0 < c.rate) : 0 < c.grownRate := by
        unfold RateController.grownRate
        split_ifs
        · exact mul_pos hpos (by norm_num)
        · exact add_pos hpos (lt_max_of_lt_right one_pos)
      dsimp only at htick
      split_ifs at htick
      · cases htick
        constructor
        · rcases hc : c.ceiling with _ | ceiling
          · exact hgrown _ hpos
          · exact lt_min (hgrown _ hpos) (hceiling ceiling hc)
        · rfl
      · cases htick; exact ⟨hpos, rfl⟩
    · cases htick; exact ⟨hpos, rfl⟩

/-- Every turn but a tick leaves the rate and the maximum as they are. -/
theorem controller_turn (hturn : s.turn t = .ok s') :
    (s'.controller.rate = s.controller.rate ∧ s'.controller.ceiling = s.controller.ceiling) ∨
      ∃ now starved, s.controller.tick now starved = .ok s'.controller := by
  unfold turn at hturn
  obtain ⟨_, -, hturn⟩ := bind_ok_iff.mp hturn
  split at hturn
  · cases hturn; exact .inl ⟨rfl, rfl⟩
  · cases hturn; exact .inl ⟨rfl, rfl⟩
  · obtain ⟨controller, htick, hturn⟩ := bind_ok_iff.mp hturn
    cases hturn
    exact .inr ⟨_, _, htick⟩
  · cases hturn; exact .inl ⟨rfl, rfl⟩
  · cases hturn; exact .inl ⟨rfl, rfl⟩

theorem rate_pos_of_reachable (hmax : ∀ ceiling ∈ maxRate, 0 < ceiling)
    (h : Labelled.Reachable (loop maxRate) s) : 0 < s.controller.rate := by
  have hboth : 0 < s.controller.rate ∧ s.controller.ceiling = maxRate := by
    apply h.invariant (I := fun s => 0 < s.controller.rate ∧ s.controller.ceiling = maxRate)
    · rintro s ⟨now, drainLimit, rfl⟩
      exact ⟨by norm_num [new, RateController.new, RateController.cappedAt], rfl⟩
    · intro t s s' _ ⟨hpos, hceiling⟩ hn
      obtain ⟨-, hturn⟩ := next_loop.mp hn
      rcases controller_turn hturn with ⟨hrate, heq⟩ | ⟨now, starved, htick⟩
      · rw [hrate, heq]
        exact ⟨hpos, hceiling⟩
      · obtain ⟨hpos', heq⟩ := rate_pos_of_tick (hceiling ▸ hmax) hpos htick
        exact ⟨hpos', heq.trans hceiling⟩
  exact hboth.1

section Rounds

/-- Shards put on the link by a turn. -/
def Branch.shards : Branch → ℕ
  | .taken _ shards _ => shards
  | _ => 0

/-- A turn of the loop as the pacer sees it. -/
def round (s : Pacing) (t : Turn) : Pacer.Round :=
  ⟨s.controller.rate, max (seconds t.top - s.pacer.lastRefill) 0, t.branch.shards⟩

def roundsOf (s : Pacing) : List Turn → List Pacer.Round
  | [] => []
  | t :: turns =>
    s.round t :: match s.turn t with
      | .ok s' => s'.roundsOf turns
      | .error _ => []

theorem credit_refilled (s : Pacing) (t : Turn) {q : Pacer} (hq : q.credit = s.pacer.credit) :
    ((s.round t).refilled q).credit = (s.refilled t.top).credit := by
  unfold Pacer.Round.refilled refilled Pacer.refill round
  simp only
  rw [hq, add_sub_cancel_left, max_eq_left (le_max_right _ _)]

theorem credit_turn (hturn : s.turn t = .ok s') :
    s'.pacer.credit = (s.refilled t.top).credit - t.branch.shards := by
  unfold turn at hturn
  obtain ⟨_, -, hturn⟩ := bind_ok_iff.mp hturn
  unfold Branch.shards
  split at hturn
  next messages shards left hbranch =>
    cases hturn
    rw [hbranch, Pacer.credit_consume_iterate]
    split_ifs <;> rfl
  next left hbranch =>
    cases hturn
    rw [hbranch, Nat.cast_zero, sub_zero]
    cases left <;> rfl
  next hbranch =>
    obtain ⟨controller, -, hturn⟩ := bind_ok_iff.mp hturn
    cases hturn
    rw [hbranch, Nat.cast_zero, sub_zero]
  next hbranch =>
    cases hturn
    rw [hbranch, Nat.cast_zero, sub_zero]
  next hbranch =>
    cases hturn
    rw [hbranch, Nat.cast_zero, sub_zero]

/-- A turn takes no more shards than there is credit for. -/
theorem shards_le_budget (h : s.Enabled t) : t.branch.shards ≤ (s.refilled t.top).budget := by
  unfold Enabled at h
  unfold Branch.shards
  split at h
  next messages shards left hbranch =>
    rw [hbranch]
    exact h.2.2.trans (h.2.1.trans (Nat.min_le_left ..))
  next left hbranch =>
    rw [hbranch]
    exact Nat.zero_le _
  next hne _ =>
    split
    next hbranch => exact absurd hbranch (hne _ _ _)
    next => exact Nat.zero_le _

/-- A turn at a positive rate is a round of the pacer. -/
theorem next_round (hpos : 0 < s.controller.rate) (hn : (loop maxRate).next t s = some s')
    {q : Pacer} (hq : q.credit = s.pacer.credit) :
    ∃ q', Pacer.rounds.next (s.round t) q = some q' ∧ q'.credit = s'.pacer.credit := by
  obtain ⟨henabled, hturn⟩ := next_loop.mp hn
  have hcredit := credit_refilled s t hq
  refine ⟨_, Pacer.next_rounds.mpr ⟨⟨hpos, le_max_right _ _, ?_⟩, rfl⟩, ?_⟩
  · rw [Pacer.budget, hcredit]
    exact shards_le_budget henabled
  · rw [Pacer.credit_consume_iterate, hcredit, credit_turn hturn]
    rfl

/-- The turns of a run, and the rounds of the pacer in it. -/
theorem exec_roundsOf (hmax : ∀ ceiling ∈ maxRate, 0 < ceiling)
    (h : Labelled.Reachable (loop maxRate) s) {turns : List Turn}
    (he : Labelled.exec (loop maxRate) turns s = some s') {q : Pacer}
    (hq : q.credit = s.pacer.credit) :
    ∃ q', Labelled.exec Pacer.rounds (s.roundsOf turns) q = some q' ∧
      q'.credit = s'.pacer.credit := by
  induction turns generalizing s q with
  | nil =>
    cases he
    exact ⟨q, rfl, hq⟩
  | cons t turns ih =>
    rw [Labelled.exec_cons, Option.bind_eq_some_iff] at he
    obtain ⟨s₁, hn, he⟩ := he
    obtain ⟨q₁, hround, hq₁⟩ := next_round (rate_pos_of_reachable hmax h) hn hq
    obtain ⟨q', hrest, hq'⟩ := ih (h.step trivial hn) he hq₁
    refine ⟨q', ?_, hq'⟩
    rw [roundsOf, (next_loop.mp hn).2, Labelled.exec_cons, hround]
    exact hrest

/-- Under a positive maximum, or none, no stretch of a run puts more shards on the link than the
credit at its start and what is paced. -/
theorem shards_sent_le (hmax : ∀ ceiling ∈ maxRate, 0 < ceiling)
    (h : Labelled.Reachable (loop maxRate) s) {turns : List Turn}
    (he : Labelled.exec (loop maxRate) turns s = some s') :
    0 ≤ s.pacer.credit ∧
      (Pacer.shards (s.roundsOf turns) : ℚ) ≤ s.pacer.credit + Pacer.paced (s.roundsOf turns) := by
  have hnonneg : 0 ≤ s.pacer.credit := by
    obtain ⟨s₀, before, ⟨now, drainLimit, rfl⟩, hbefore⟩ := Labelled.reachable_iff_exec.mp h
    obtain ⟨q, hq, hcredit⟩ :=
      exec_roundsOf hmax (.start ⟨now, drainLimit, rfl⟩) hbefore (q := .new (seconds now)) rfl
    rw [← hcredit]
    exact (Pacer.credit_exec le_rfl hq).2
  obtain ⟨q, hq, -⟩ := exec_roundsOf hmax h he rfl
  exact ⟨hnonneg, Pacer.shards_le hnonneg hq⟩

end Rounds

section FirstGrowth

/-- A clean report, a wait for the first credit with shards left behind, and a tick. -/
def firstGrowth : List Turn :=
  [⟨0, 0, .report 0 1 0⟩, ⟨0, 0, .slept true⟩, ⟨0, 0, .tick⟩]

/-- At the initial rate and without credit there is a wait, and it is a short one. -/
theorem refilled_initial {c : RateController} (hrate : c.rate = initialRate) (waited : Bool) :
    Pacing.refilled ⟨c, ⟨0, 0, waited⟩, 1⟩ 0 = ⟨0, 0, waited⟩ ∧
      (⟨0, 0, waited⟩ : Pacer).timeUntilCredit c.rate = .ok (1 / 6000) := by
  rw [refilled, hrate]
  constructor
  · norm_num [Pacer.refill, seconds, burstCap]
  · norm_num [Pacer.timeUntilCredit, quotient, fromSecs]

/-- The tick after a clean report, where the rate was what held the sender back. -/
theorem tick_clean (ceiling : ℚ) : ∃ c,
    ((RateController.new.cappedAt (some ceiling)).onReport 0 0 1 0).tick 0 true = .ok c ∧
      c.rate = min (initialRate * slowStartFactor) ceiling := by
  have hworst : ((RateController.new.cappedAt (some ceiling)).onReport 0 0 1 0).worstRecentLoss 0 =
      some (0 * 0 + (1 - 0) * 0) := rfl
  rw [RateController.tick, hworst]
  norm_num [RateController.grow, RateController.inSlowStart, RateController.onReport,
    RateController.cappedAt, RateController.new, RateController.grownRate, addChecked]

/-- The first tick that grows the rate takes it to the maximum, however low that is. -/
theorem rate_after_firstGrowth {ceiling : ℚ} (h : ceiling ≤ 0) :
    ∃ s, Labelled.exec (loop (some ceiling)) firstGrowth (new (some ceiling) 0 1) = some s ∧
      s.controller.rate = ceiling ∧ s.pacer = .new 0 := by
  obtain ⟨c, htick, hrate⟩ := tick_clean ceiling
  have hmin : min (initialRate * slowStartFactor) ceiling = ceiling :=
    min_eq_right (h.trans (by norm_num))
  let c₀ := RateController.new.cappedAt (some ceiling)
  let c₁ := c₀.onReport 0 0 1 0
  have hstart : new (some ceiling) 0 1 = ⟨c₀, ⟨0, 0, false⟩, 1⟩ := by
    simp [new, Pacer.new, seconds, c₀]
  have hreport : (loop (some ceiling)).next ⟨0, 0, .report 0 1 0⟩ ⟨c₀, ⟨0, 0, false⟩, 1⟩ =
      some ⟨c₁, ⟨0, 0, false⟩, 1⟩ := by
    obtain ⟨hrefilled, hwait⟩ := refilled_initial (c := c₀) rfl false
    rw [next_loop, turn, hrefilled, hwait]
    exact ⟨trivial, rfl⟩
  have hslept : (loop (some ceiling)).next ⟨0, 0, .slept true⟩ ⟨c₁, ⟨0, 0, false⟩, 1⟩ =
      some ⟨c₁, ⟨0, 0, true⟩, 1⟩ := by
    obtain ⟨hrefilled, hwait⟩ := refilled_initial (c := c₁) rfl false
    rw [next_loop, turn, hrefilled, hwait]
    refine ⟨?_, rfl⟩
    simp [Enabled, budget, hrefilled, Pacer.budget]
  have hticked : (loop (some ceiling)).next ⟨0, 0, .tick⟩ ⟨c₁, ⟨0, 0, true⟩, 1⟩ =
      some ⟨c, ⟨0, 0, false⟩, 1⟩ := by
    obtain ⟨hrefilled, hwait⟩ := refilled_initial (c := c₁) rfl true
    rw [next_loop, turn, hrefilled, hwait]
    refine ⟨trivial, ?_⟩
    simp only [ok_bind, Pacer.takeStarvation]
    rw [htick]
    rfl
  refine ⟨⟨c, ⟨0, 0, false⟩, 1⟩, ?_, hrate.trans hmin, rfl⟩
  rw [firstGrowth, hstart, Labelled.exec_cons, hreport, Option.bind_some, Labelled.exec_cons,
    hslept, Option.bind_some, Labelled.exec_cons, hticked]
  rfl

theorem reach_firstGrowth {ceiling : ℚ}
    (he : Labelled.exec (loop (some ceiling)) firstGrowth (new (some ceiling) 0 1) = some s) :
    Labelled.Reach (loop (some ceiling)) Fractions s := by
  have hstart : Labelled.Reach (loop (some ceiling)) Fractions (new (some ceiling) 0 1) :=
    .start ⟨0, 1, rfl⟩
  apply hstart.exec_of_ok ?_ he
  simp [firstGrowth, Fractions]

end FirstGrowth

/-- The rate stays positive, and no wait is a division by zero or below zero, in every run of a
transfer exactly when its maximum is positive or there is none; and the command line hands on a
positive one exactly when it is given one. A finite wait can still be too long for a `Duration`:
under a positive maximum so small that it passes `2 ^ 64` seconds, the loop panics all the same. -/
theorem rate_stays_positive_iff (maxRate mib : Option ℚ) :
    ((∀ s, Labelled.Reach (loop maxRate) Fractions s → s.Sound) ↔
      ∀ ceiling ∈ maxRate, 0 < ceiling) ∧
    ((∀ s, Labelled.Reach (loop (mib.map blocksPerSecond)) Fractions s → s.Sound) ↔
      ∀ rate ∈ mib, 0 < rate) := by
  have hiff (maxRate : Option ℚ) :
      (∀ s, Labelled.Reach (loop maxRate) Fractions s → s.Sound) ↔
        ∀ ceiling ∈ maxRate, 0 < ceiling := by
    constructor
    · intro h ceiling hceiling
      cases hceiling
      by_contra hle
      obtain ⟨s, he, hrate, -⟩ := rate_after_firstGrowth (not_lt.mp hle)
      have hpos := (h s (reach_firstGrowth he)).rate_pos
      rw [hrate] at hpos
      exact hle hpos
    · intro hmax s hs
      exact sound_of_rate_pos (rate_pos_of_reachable hmax hs.reachable)
  refine ⟨hiff maxRate, (hiff _).trans ?_⟩
  simp only [Option.mem_map, forall_exists_index, and_imp, forall_apply_eq_imp_iff₂,
    blocksPerSecond_pos]

/-- A maximum of zero: the first tick that grows the rate makes it zero, and the next round of the
loop dies. -/
theorem rate_reaches_zero : ∃ s t, Labelled.Reach (loop (some (blocksPerSecond 0))) Fractions s ∧
    s.controller.rate = 0 ∧ ¬ s.Sound ∧ s.Enabled t ∧
      s.turn t = .error
        (.expect "cannot convert float seconds to Duration: value is either too big or NaN") := by
  have hzero : blocksPerSecond 0 = 0 := by norm_num [blocksPerSecond]
  obtain ⟨s, he, hrate, hpacer⟩ := rate_after_firstGrowth hzero.le
  rw [hzero] at hrate
  have hrefilled : s.refilled 0 = ⟨0, 0, false⟩ := by
    rw [refilled, hpacer, hrate]
    decide +kernel
  refine ⟨s, ⟨0, 0, .other⟩, reach_firstGrowth he, hrate, fun hsound => ?_, trivial, ?_⟩
  · exact hsound.rate_pos.ne' hrate
  · rw [turn, hrefilled, hrate]
    norm_num [Pacer.timeUntilCredit, quotient, fromSecs]
    rfl

end Pacing
end Scuttlecast
