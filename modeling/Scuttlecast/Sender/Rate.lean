import Scuttlecast.Machine
import Scuttlecast.Library.Table
import Mathlib.Algebra.Order.Field.Rat
import Mathlib.Tactic.Linarith
import Mathlib.Tactic.NormNum

/-! The rate controller of the pacer, over exact rates. A call is given the reading of the clock,
and a report the weight that the moving average puts on it. -/
namespace Scuttlecast

abbrev repairThreshold : ℚ := 0.005

abbrev demandImprovement : ℚ := 0.8

abbrev minFactor : ℚ := 0.5

abbrev goodTicksNeeded : ℕ := 3

abbrev slowStartFactor : ℚ := 4

/-- `TICK_INTERVAL` over `RECOVERY_TARGET`, in milliseconds. -/
abbrev rateRecoveryFraction : ℚ := 200 / 10000

abbrev minRate : ℚ := 50

abbrev initialRate : ℚ := 6000

abbrev stalenessLimit : ℕ := 1000000000

structure ClientLoss where
  ewma : ℚ
  lastReportAt : ℕ

structure RateController where
  clients : Table ℕ ClientLoss
  rate : ℚ
  ceiling : Option ℚ
  goodTicks : ℕ
  slowStartLimit : Option ℚ
  demandWhenReduced : Option ℚ

namespace RateController

abbrev k : ℚ := 4

def new : RateController := ⟨∅, initialRate, none, 0, none, none⟩

def cappedAt (c : RateController) (ceiling : Option ℚ) : RateController :=
  { c with ceiling := ceiling }

def onReport (c : RateController) (now : ℕ) (alpha : ℚ) (id : ℕ) (demand : ℚ) : RateController :=
  let entry := (c.clients.lookup id).getD ⟨demand, now⟩
  { c with clients :=
      c.clients.insert id ⟨alpha * demand + (1 - alpha) * entry.ewma, now⟩ }

def worstRecentLoss (c : RateController) (now : ℕ) : Option ℚ :=
  ((c.clients.values.filter fun client => now - client.lastReportAt < stalenessLimit).map
    (·.ewma)).max?

def reductionFactor (worst : ℚ) : ℚ := max minFactor (min (1 - k * worst) 1)

def backingOffHelps (c : RateController) (demand : ℚ) : Bool :=
  c.demandWhenReduced.all fun before => demand < before * demandImprovement

def inSlowStart (c : RateController) : Bool := c.slowStartLimit.all fun limit => c.rate < limit

def additiveStep (c : RateController) : ℚ :=
  max (c.slowStartLimit.getD c.rate * rateRecoveryFraction) 1

def grownRate (c : RateController) : ℚ :=
  if c.inSlowStart then c.rate * slowStartFactor else c.rate + c.additiveStep

/-- A tick that finds `worst` above the threshold. -/
def backOff (c : RateController) (worst : ℚ) : RateController :=
  let c := if c.backingOffHelps worst then
      { c with goodTicks := 0
               slowStartLimit := some (c.rate * reductionFactor worst)
               rate := max (c.rate * reductionFactor worst) minRate }
    else c
  { c with demandWhenReduced := some worst }

/-- A good tick while the rate is what holds the sender back. -/
def grow (c : RateController) : Except Panic RateController := do
  let goodTicks ← addChecked 32 c.goodTicks 1
  let c := { c with goodTicks := goodTicks }
  if c.inSlowStart ∨ goodTicksNeeded ≤ c.goodTicks then
    .ok { c with rate := match c.ceiling with
      | some ceiling => min c.grownRate ceiling
      | none => c.grownRate }
  else .ok c

def tick (c : RateController) (now : ℕ) (rateLimited : Bool) : Except Panic RateController :=
  match c.worstRecentLoss now with
  | none => .ok c
  | some worst =>
    if repairThreshold < worst then .ok (c.backOff worst)
    else
      let c := { c with demandWhenReduced := none }
      if rateLimited then c.grow else .ok c

/-- A call of the send loop. -/
inductive Call where
  | report (now : ℕ) (alpha : ℚ) (id : ℕ) (demand : ℚ)
  | tick (now : ℕ) (rateLimited : Bool)

def call (c : RateController) : Call → Except Panic RateController
  | .report now alpha id demand => .ok (c.onReport now alpha id demand)
  | .tick now rateLimited => c.tick now rateLimited

def run (c : RateController) (calls : List Call) : Except Panic RateController :=
  calls.foldlM call c

theorem reductionFactor_nonneg (worst : ℚ) : 0 ≤ reductionFactor worst :=
  le_trans (by norm_num) (le_max_left _ _)

theorem reductionFactor_le_one (worst : ℚ) : reductionFactor worst ≤ 1 :=
  max_le (by norm_num) (min_le_right _ _)

variable {c c' : RateController} {ceiling : ℚ}

/-- The cap is set, is no lower than the floor, and the rate is within it. -/
structure Capped (c : RateController) (ceiling : ℚ) : Prop where
  ceiling_eq : c.ceiling = some ceiling
  floor_le : minRate ≤ ceiling
  rate_le : c.rate ≤ ceiling

/-- Backing off never takes the rate past a cap above the floor. -/
theorem Capped.backOff (h : c.Capped ceiling) (worst : ℚ) : (c.backOff worst).Capped ceiling := by
  have hnonneg : 0 ≤ ceiling := le_trans (by norm_num) h.floor_le
  have hreduced : c.rate * reductionFactor worst ≤ ceiling := by
    calc c.rate * reductionFactor worst ≤ ceiling * reductionFactor worst :=
          mul_le_mul_of_nonneg_right h.rate_le (reductionFactor_nonneg worst)
      _ ≤ ceiling := mul_le_of_le_one_right hnonneg (reductionFactor_le_one worst)
  unfold RateController.backOff
  split_ifs
  · constructor
    · exact h.ceiling_eq
    · exact h.floor_le
    · exact max_le hreduced h.floor_le
  · exact ⟨h.ceiling_eq, h.floor_le, h.rate_le⟩

/-- Growth, in slow start or past it, stops at the cap. -/
theorem Capped.grow (h : c.Capped ceiling) (hgrow : c.grow = .ok c') : c'.Capped ceiling := by
  obtain ⟨goodTicks, -, hgrow⟩ := bind_ok_iff.mp hgrow
  dsimp only at hgrow
  split_ifs at hgrow
  · cases hgrow
    constructor
    · exact h.ceiling_eq
    · exact h.floor_le
    · simp only [h.ceiling_eq]
      exact min_le_right _ _
  · cases hgrow
    exact ⟨h.ceiling_eq, h.floor_le, h.rate_le⟩

theorem Capped.tick {now : ℕ} {rateLimited : Bool} (h : c.Capped ceiling)
    (htick : c.tick now rateLimited = .ok c') : c'.Capped ceiling := by
  unfold RateController.tick at htick
  have hcleared : { c with demandWhenReduced := none }.Capped ceiling :=
    ⟨h.ceiling_eq, h.floor_le, h.rate_le⟩
  split at htick
  next => cases htick; exact h
  next worst hworst =>
    split_ifs at htick
    · cases htick; exact h.backOff worst
    · exact hcleared.grow htick
    · cases htick; exact hcleared

theorem Capped.call (h : c.Capped ceiling) {a : Call} (hcall : c.call a = .ok c') :
    c'.Capped ceiling := by
  cases a with
  | report now alpha id demand => cases hcall; exact ⟨h.ceiling_eq, h.floor_le, h.rate_le⟩
  | tick now rateLimited => exact h.tick hcall

theorem Capped.run (h : c.Capped ceiling) {calls : List Call} (hrun : c.run calls = .ok c') :
    c'.Capped ceiling := by
  induction calls generalizing c with
  | nil => cases hrun; exact h
  | cons a calls ih =>
    rw [RateController.run, List.foldlM_cons] at hrun
    obtain ⟨t, hcall, hrun⟩ := bind_ok_iff.mp hrun
    exact ih (h.call hcall) hrun

/-- However the controller is called, its rate stays within the configured maximum exactly when
the rate it starts at does. -/
theorem rate_le_ceiling_iff (ceiling : ℚ) (calls : List Call) :
    (∀ taken c, taken <+: calls → (new.cappedAt (some ceiling)).run taken = .ok c →
      c.rate ≤ ceiling) ↔ initialRate ≤ ceiling := by
  constructor
  · intro h
    exact h [] _ List.nil_prefix rfl
  · intro hstart taken c _ hrun
    have hcapped : (new.cappedAt (some ceiling)).Capped ceiling :=
      ⟨rfl, le_trans (by norm_num) hstart, hstart⟩
    exact (hcapped.run hrun).rate_le

/-- Before any call, a maximum of a thousand shards a second is exceeded sixfold. -/
theorem rate_starts_above_ceiling : ∃ ceiling : ℚ, 0 < ceiling ∧
    (new.cappedAt (some ceiling)).run [] = .ok (new.cappedAt (some ceiling)) ∧
      ¬ (new.cappedAt (some ceiling)).rate ≤ ceiling := by
  refine ⟨1000, by norm_num, rfl, ?_⟩
  show ¬ (6000 : ℚ) ≤ 1000
  norm_num

end RateController
end Scuttlecast
