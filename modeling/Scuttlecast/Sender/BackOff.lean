import Scuttlecast.Sender.Rate
import Scuttlecast.Library.Labelled
import Mathlib.Data.List.Chain

/-! When the controller backs off again. It is meant to do so only while the demand for repair
falls from one reduction to the next; what it compares with is the demand of the last lossy tick,
reduction or not. -/
namespace Scuttlecast

/-- A tick that found a demand: the demand at the last reduction of the rate before it, if there was
no good tick since, what the controller remembers before and after, and its rates. -/
structure Ticked where
  demand : ℚ
  reference : Option ℚ
  before : Option ℚ
  after : Option ℚ
  rateBefore : ℚ
  rateAfter : ℚ
  deriving DecidableEq

namespace Ticked

/-- The rate goes down. -/
def reduced (t : Ticked) : Prop := t.rateAfter < t.rateBefore

instance (t : Ticked) : Decidable t.reduced := by
  unfold reduced
  infer_instance

/-- A lossy tick reduces the rate for want of a reduction to compare with, or because the demand is
well below that at the last one; and when it does not, what is remembered stays. -/
def Faithful (t : Ticked) : Prop :=
  repairThreshold < t.demand →
    (t.reduced ↔ ∀ reference ∈ t.reference, t.demand < demandImprovement * reference) ∧
      (¬ t.reduced → t.after = t.before)

instance (t : Ticked) : Decidable t.Faithful := by
  unfold Faithful
  infer_instance

/-- Where the demand is high, and well below what is remembered, if anything is, the rate is above
its floor. -/
def Roomy (t : Ticked) : Prop :=
  repairThreshold < t.demand → (∀ before ∈ t.before, t.demand < demandImprovement * before) →
    minRate < t.rateBefore

instance (t : Ticked) : Decidable t.Roomy := by
  unfold Roomy
  infer_instance

end Ticked

/-- Of two lossy ticks in a row, the second finds the demand well below the first or unchanged. -/
def Relieved (demand next : ℚ) : Prop :=
  repairThreshold < demand → repairThreshold < next →
    next < demandImprovement * demand ∨ next = demand

/-- A controller, with the demand at its last reduction, unless a good tick came after it, and a
record of its ticks. -/
structure Watched where
  controller : RateController
  reference : Option ℚ
  ticks : List Ticked

namespace Watched

/-- The record of a tick that finds `worst`, and ends at `c'`. -/
def ticked (w : Watched) (worst : ℚ) (c' : RateController) : Ticked where
  demand := worst
  reference := w.reference
  before := w.controller.demandWhenReduced
  after := c'.demandWhenReduced
  rateBefore := w.controller.rate
  rateAfter := c'.rate

def record (w : Watched) (c' : RateController) : RateController.Call → Watched
  | .report _ _ _ _ => { w with controller := c' }
  | .tick now _ =>
    match w.controller.worstRecentLoss now with
    | none => { w with controller := c' }
    | some worst =>
      { controller := c'
        reference :=
          if repairThreshold < worst then
            if (w.ticked worst c').reduced then some worst else w.reference
          else none
        ticks := w.ticks ++ [w.ticked worst c'] }

/-- The calls of a transfer with this maximum. -/
def calls (ceiling : Option ℚ) : Labelled.System Watched RateController.Call where
  init w := w = ⟨RateController.new.cappedAt ceiling, none, []⟩
  next a w :=
    match w.controller.call a with
    | .ok c' => some (w.record c' a)
    | .error _ => none

variable {w w' : Watched} {ceiling : Option ℚ} {a : RateController.Call}

theorem next_calls : (calls ceiling).next a w = some w' ↔
    ∃ c', w.controller.call a = .ok c' ∧ w.record c' a = w' := by
  unfold calls
  dsimp only
  rcases w.controller.call a with e | c' <;> simp

theorem backingOffHelps_iff {c : RateController} {worst : ℚ} : c.backingOffHelps worst ↔
    ∀ before ∈ c.demandWhenReduced, worst < demandImprovement * before := by
  rw [RateController.backingOffHelps, Option.all_eq_true]
  simp only [decide_eq_true_eq, mul_comm, Option.mem_def]

/-- The rate goes down where backing off helps and the rate is above its floor: at the floor it is
left where it is, and from below it is brought up. -/
theorem reduced_iff {c : RateController} {worst : ℚ} (hworst : repairThreshold < worst) :
    (c.backOff worst).rate < c.rate ↔ c.backingOffHelps worst ∧ minRate < c.rate := by
  have hfactor : RateController.reductionFactor worst < 1 := by
    apply max_lt (by norm_num)
    apply min_lt_of_left_lt
    have : (0 : ℚ) < worst := lt_trans (by norm_num) hworst
    linarith
  unfold RateController.backOff
  split_ifs with hhelps
  · have hdown (hrate : minRate < c.rate) : c.rate * RateController.reductionFactor worst < c.rate :=
      mul_lt_of_lt_one_right (lt_trans (by norm_num) hrate) hfactor
    simp only [max_lt_iff, hhelps, true_and]
    exact ⟨And.right, fun hrate => ⟨hdown hrate, hrate⟩⟩
  · simp [hhelps]

/-- What a tick that finds a demand does to what is remembered. -/
theorem tick_cases {c c' : RateController} {now : ℕ} {rateLimited : Bool} {worst : ℚ}
    (hworst : c.worstRecentLoss now = some worst) (htick : c.tick now rateLimited = .ok c') :
    repairThreshold < worst ∧ c' = c.backOff worst ∨
      ¬ repairThreshold < worst ∧ c'.demandWhenReduced = none := by
  unfold RateController.tick at htick
  rw [hworst] at htick
  dsimp only at htick
  split_ifs at htick with hlossy
  · cases htick
    exact .inl ⟨hlossy, rfl⟩
  · obtain ⟨goodTicks, -, htick⟩ := bind_ok_iff.mp htick
    dsimp only at htick
    split_ifs at htick
    all_goals
      cases htick
      exact .inr ⟨hlossy, rfl⟩
  · cases htick
    exact .inr ⟨hlossy, rfl⟩

/-- Away from ticks that find a demand nothing is remembered or recorded. -/
theorem next_cases (hn : (calls ceiling).next a w = some w') :
    (w'.controller.demandWhenReduced = w.controller.demandWhenReduced ∧
        w'.reference = w.reference ∧ w'.ticks = w.ticks) ∨
      ∃ worst, w'.ticks = w.ticks ++ [w.ticked worst w'.controller] ∧
        (repairThreshold < worst ∧ w'.controller = w.controller.backOff worst ∧
            w'.reference = (if (w.ticked worst w'.controller).reduced then some worst
              else w.reference) ∨
          ¬ repairThreshold < worst ∧ w'.controller.demandWhenReduced = none ∧
            w'.reference = none) := by
  obtain ⟨c', hcall, rfl⟩ := next_calls.mp hn
  cases a with
  | report now alpha id demand =>
    cases hcall
    exact .inl ⟨rfl, rfl, rfl⟩
  | tick now rateLimited =>
    rcases hworst : w.controller.worstRecentLoss now with _ | worst
    · unfold RateController.call RateController.tick at hcall
      simp only [hworst] at hcall
      cases hcall
      simp [record, hworst]
    · refine .inr ⟨worst, by simp [record, hworst], ?_⟩
      rcases tick_cases hworst hcall with ⟨hlossy, rfl⟩ | ⟨hgood, hnone⟩
      · exact .inl ⟨hlossy, by simp [record, hworst], by simp [record, hworst, hlossy]⟩
      · refine .inr ⟨hgood, ?_, ?_⟩
        · simpa [record, hworst] using hnone
        · simp [record, hworst, hgood]

/-- The demand of the last tick that found one, if it was lossy. -/
def lastLossy (w : Watched) : Option ℚ :=
  (w.ticks.getLast?.map Ticked.demand).filter fun demand => repairThreshold < demand

/-- What is remembered is the demand of the last lossy tick. That is the demand at the last
reduction for as long as every tick is faithful, and they are while the demands are relieved and there
is room below the rate. -/
structure Remembers (w : Watched) : Prop where
  last : w.controller.demandWhenReduced = w.lastLossy
  reference : (∀ t ∈ w.ticks, t.Faithful) → w.reference = w.controller.demandWhenReduced
  relieved : (∀ t ∈ w.ticks, t.Faithful) ↔
    (w.ticks.map Ticked.demand).IsChain Relieved ∧ ∀ t ∈ w.ticks, t.Roomy

/-- A demand is relieved if backing off helps against it, or it is the one that is remembered. -/
theorem relieved_iff {worst : ℚ} (hlossy : repairThreshold < worst)
    (hlast : w.controller.demandWhenReduced = w.lastLossy) :
    (∀ demand ∈ w.ticks.getLast?.map Ticked.demand, Relieved demand worst) ↔
      (¬ w.controller.backingOffHelps worst → w.controller.demandWhenReduced = some worst) := by
  rw [backingOffHelps_iff, hlast, lastLossy]
  rcases w.ticks.getLast?.map Ticked.demand with _ | demand
  · simp
  by_cases hd : repairThreshold < demand
  · rw [Option.filter_some, decide_eq_true hd, if_pos rfl]
    simp only [Option.mem_some_iff, forall_eq', Relieved, hd, hlossy, forall_const,
      Option.some.injEq, or_iff_not_imp_left]
    exact imp_congr_right fun _ => eq_comm
  · rw [Option.filter_some, decide_eq_false hd, if_neg Bool.false_ne_true]
    simp [Relieved, hd]

/-- With the demand of the last lossy tick for a reference, a lossy tick is faithful exactly when
its demand is relieved, and there is room if it backs off. -/
theorem faithful_iff_relieved {worst : ℚ} (hlossy : repairThreshold < worst)
    (hlast : w.controller.demandWhenReduced = w.lastLossy)
    (hreference : w.reference = w.controller.demandWhenReduced) :
    (w.ticked worst (w.controller.backOff worst)).Faithful ↔
      (∀ demand ∈ w.ticks.getLast?.map Ticked.demand, Relieved demand worst) ∧
        (w.ticked worst (w.controller.backOff worst)).Roomy := by
  have hreduced : (w.ticked worst (w.controller.backOff worst)).reduced ↔
      w.controller.backingOffHelps worst ∧ minRate < w.controller.rate := reduced_iff hlossy
  have hroomy : (w.ticked worst (w.controller.backOff worst)).Roomy ↔
      (w.controller.backingOffHelps worst → minRate < w.controller.rate) := by
    rw [backingOffHelps_iff]
    exact ⟨fun h => h hlossy, fun h _ => h⟩
  have hfaithful : (w.ticked worst (w.controller.backOff worst)).Faithful ↔
      ((w.ticked worst (w.controller.backOff worst)).reduced ↔
        w.controller.backingOffHelps worst) ∧
      (¬ (w.ticked worst (w.controller.backOff worst)).reduced →
        some worst = w.controller.demandWhenReduced) := by
    have hhelps : w.controller.backingOffHelps worst ↔
        ∀ reference ∈ w.reference, worst < demandImprovement * reference := by
      rw [backingOffHelps_iff, hreference]
    rw [hhelps]
    exact ⟨fun h => h hlossy, fun h _ => h⟩
  rw [hfaithful, hreduced, hroomy, relieved_iff hlossy hlast]
  by_cases hhelps : w.controller.backingOffHelps worst
  · -- no demand is well below itself
    have hother : some worst ≠ w.controller.demandWhenReduced := by
      intro hsame
      have hless := backingOffHelps_iff.mp hhelps worst hsame.symm
      have hpos : (0 : ℚ) < worst := lt_trans (by norm_num) hlossy
      have hbelow : demandImprovement * worst < worst := mul_lt_of_lt_one_left hpos (by norm_num)
      exact lt_asymm hless hbelow
    simp [hhelps, hother]
  · simp [hhelps, eq_comm]

theorem Remembers.next (h : w.Remembers) (hn : (calls ceiling).next a w = some w') :
    w'.Remembers := by
  rcases next_cases hn with ⟨hcontroller, hreference, hticks⟩ | ⟨worst, hticks, hcases⟩
  · constructor
    · rw [hcontroller, h.last, lastLossy, lastLossy, hticks]
    · rw [hticks, hreference, hcontroller]
      exact h.reference
    · rw [hticks]
      exact h.relieved
  have hall : (∀ t ∈ w'.ticks, t.Faithful) ↔
      (∀ t ∈ w.ticks, t.Faithful) ∧ (w.ticked worst w'.controller).Faithful := by
    rw [hticks, List.forall_mem_append, List.forall_mem_singleton]
  have hroom : (∀ t ∈ w'.ticks, t.Roomy) ↔
      (∀ t ∈ w.ticks, t.Roomy) ∧ (w.ticked worst w'.controller).Roomy := by
    rw [hticks, List.forall_mem_append, List.forall_mem_singleton]
  have hchain : (w'.ticks.map Ticked.demand).IsChain Relieved ↔
      (w.ticks.map Ticked.demand).IsChain Relieved ∧
        ∀ demand ∈ w.ticks.getLast?.map Ticked.demand, Relieved demand worst := by
    rw [hticks, List.map_append, List.isChain_append, List.getLast?_map]
    simp [ticked]
  have hlastLossy : w'.lastLossy = if repairThreshold < worst then some worst else none := by
    rw [lastLossy, hticks, List.getLast?_concat, Option.map_some, Option.filter_some]
    exact if_congr decide_eq_true_iff rfl rfl
  rcases hcases with ⟨hlossy, hcontroller, hreference⟩ | ⟨hgood, hnone, hreference⟩
  · have hremembered : w'.controller.demandWhenReduced = some worst := by
      rw [hcontroller]
      rfl
    constructor
    · rw [hlastLossy, if_pos hlossy, hremembered]
    · intro hfaithful
      obtain ⟨hbefore, hnow⟩ := hall.mp hfaithful
      rw [hreference, hremembered]
      split_ifs with hreduces
      · rfl
      · rw [h.reference hbefore]
        exact ((hnow hlossy).2 hreduces).symm.trans hremembered
    · rw [hall, hchain, hroom, and_and_and_comm, ← h.relieved]
      apply and_congr_right
      intro hbefore
      rw [hcontroller]
      exact faithful_iff_relieved hlossy h.last (h.reference hbefore)
  · constructor
    · rw [hlastLossy, if_neg hgood, hnone]
    · intro _
      rw [hreference, hnone]
    · rw [hall, hchain, hroom, and_and_and_comm, ← h.relieved]
      apply and_congr_right
      intro _
      exact iff_of_true (fun hlossy => absurd hlossy hgood)
        ⟨fun _ _ _ hlossy => absurd hlossy hgood, fun hlossy => absurd hlossy hgood⟩

theorem remembers_of_reachable (h : Labelled.Reachable (calls ceiling) w) : w.Remembers := by
  apply h.invariant
  · rintro w rfl
    constructor <;> simp [lastLossy, RateController.cappedAt, RateController.new]
  · intro a w w' _ hw hn
    exact hw.next hn

/-- In every run, each lossy tick reduces the rate exactly when it should, and leaves what is
remembered alone when it does not, exactly when every lossy tick right after another finds the
demand well below that one's or the same, and every one that backs off finds the rate above its
floor. -/
theorem backs_off_when_it_helped_iff (h : Labelled.Reachable (calls ceiling) w) :
    (∀ t ∈ w.ticks, t.Faithful) ↔
      (w.ticks.map Ticked.demand).IsChain Relieved ∧ ∀ t ∈ w.ticks, t.Roomy :=
  (remembers_of_reachable h).relieved

/-- Each report from a receiver of its own, after those before it have become stale. -/
def fresh (demands : List ℚ) : List RateController.Call :=
  demands.zipIdx.flatMap fun e =>
    [.report (2 * e.2 * stalenessLimit) 0 e.2 e.1, .tick (2 * e.2 * stalenessLimit) false]

/-- Of a demand that halves and then stays there: one reduction at each of the first two ticks. -/
theorem backs_off_when_it_helped_halved : ∃ w, Labelled.Reachable (calls none) w ∧
    w.ticks.map (fun t => (t.demand, t.rateAfter)) =
      [(1 / 10, 3600), (1 / 20, 2880), (1 / 20, 2880)] ∧ ∀ t ∈ w.ticks, t.Faithful := by
  let ticks : List Ticked := [⟨1 / 10, none, none, some (1 / 10), 6000, 3600⟩,
    ⟨1 / 20, some (1 / 10), some (1 / 10), some (1 / 20), 3600, 2880⟩,
    ⟨1 / 20, some (1 / 20), some (1 / 20), some (1 / 20), 2880, 2880⟩]
  have hticks : (Labelled.exec (calls none) (fresh [1 / 10, 1 / 20, 1 / 20])
      ⟨RateController.new.cappedAt none, none, []⟩).map (·.ticks) = some ticks := by
    decide +kernel
  obtain ⟨w, hrun, hrecord⟩ := Option.map_eq_some_iff.mp hticks
  have hreach : Labelled.Reachable (calls none) w := .exec (.start rfl) hrun
  refine ⟨w, hreach, by rw [hrecord]; rfl, (backs_off_when_it_helped_iff hreach).mpr ⟨?_, ?_⟩⟩
  · rw [hrecord]
    norm_num [ticks, Relieved]
  · rw [hrecord]
    decide +kernel

/-- The demand goes down by a quarter in two steps. Neither is enough for a reduction, although
the second brings it below four fifths of the demand at the last one. -/
theorem drifting_demand_is_missed : ∃ w t, Labelled.Reachable (calls none) w ∧ t ∈ w.ticks ∧
    t.reference = some (1 / 10) ∧ t.demand = 3 / 40 ∧
    t.demand < demandImprovement * (1 / 10) ∧ t.rateAfter = t.rateBefore ∧
    t.before = some (9 / 100) ∧ t.after = some (3 / 40) ∧ ¬ t.Faithful := by
  let t : Ticked :=
    { demand := 3 / 40, reference := some (1 / 10), before := some (9 / 100)
      after := some (3 / 40), rateBefore := 3600, rateAfter := 3600 }
  have hticks : (Labelled.exec (calls none) (fresh [1 / 10, 9 / 100, 3 / 40])
      ⟨RateController.new.cappedAt none, none, []⟩).map (·.ticks.getLast?) = some (some t) := by
    decide +kernel
  obtain ⟨w, hrun, hlast⟩ := Option.map_eq_some_iff.mp hticks
  refine ⟨w, t, .exec (.start rfl) hrun, List.mem_of_getLast? hlast, rfl, rfl, ?_, rfl, rfl, rfl, ?_⟩
  · norm_num
  · decide +kernel

end Watched
end Scuttlecast
