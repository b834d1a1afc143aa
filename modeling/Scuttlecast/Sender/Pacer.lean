import Scuttlecast.Duration
import Scuttlecast.Library.Labelled
import Scuttlecast.Library.TokenBucket
import Mathlib.Algebra.BigOperators.Ring.Finset
import Mathlib.Algebra.Order.Floor.Semiring
import Mathlib.Data.Rat.Floor
import Mathlib.Tactic.Linarith
import Mathlib.Tactic.NormNum

/-! The pacer of the send loop, over exact numbers: credit is earned at the rate of the moment, up
to a burst, and every shard takes one of it. Readings of the clock are in seconds. -/
namespace Scuttlecast

/-- `BURST_QUANTUM`, in seconds. -/
abbrev burstQuantum : ℚ := 0.002

abbrev minBurst : ℚ := 4

abbrev maxBurst : ℚ := 4096

structure Pacer where
  credit : ℚ
  lastRefill : ℚ
  waited : Bool
  deriving DecidableEq

def burstCap (rate : ℚ) : ℚ := min (max (rate * burstQuantum) minBurst) maxBurst

namespace Pacer

def new (now : ℚ) : Pacer := ⟨0, now, false⟩

/-- `duration_since` is zero where the clock ran backwards. -/
def refill (p : Pacer) (now rate : ℚ) : Pacer :=
  let earned := max (now - p.lastRefill) 0 * rate
  { p with credit := min (p.credit + earned) (burstCap rate), lastRefill := now }

/-- Called `waited` in the source. -/
def markWaited (p : Pacer) : Pacer := { p with waited := true }

/-- `as usize` -/
def budget (p : Pacer) : ℕ := min ⌊p.credit⌋₊ (2 ^ 64 - 1)

def consume (p : Pacer) : Pacer := { p with credit := p.credit - 1 }

def timeUntilCredit (p : Pacer) (rate : ℚ) : Except Panic ℚ :=
  let wanted := 1 - p.credit
  if wanted ≤ 0 then .ok 0 else fromSecs (quotient wanted rate)

def takeStarvation (p : Pacer) : Bool × Pacer := (p.waited, { p with waited := false })

theorem minBurst_le_burstCap (rate : ℚ) : minBurst ≤ burstCap rate :=
  le_min (le_max_right ..) (by norm_num)

theorem burstCap_nonneg (rate : ℚ) : 0 ≤ burstCap rate :=
  le_trans (by norm_num) (minBurst_le_burstCap rate)

theorem burstCap_mono {rate rate' : ℚ} (h : rate ≤ rate') : burstCap rate ≤ burstCap rate' := by
  apply min_le_min_right
  apply max_le_max_right
  exact mul_le_mul_of_nonneg_right h (by norm_num)

@[simp] theorem credit_consume_iterate (p : Pacer) (n : ℕ) :
    (consume^[n] p).credit = p.credit - n := by
  induction n with
  | zero => simp
  | succ n ih =>
    rw [Function.iterate_succ_apply', consume, ih]
    push_cast
    ring

theorem budget_le_credit {p : Pacer} (h : 0 ≤ p.credit) : (p.budget : ℚ) ≤ p.credit := by
  calc (p.budget : ℚ) ≤ (⌊p.credit⌋₊ : ℚ) := by
        exact_mod_cast Nat.min_le_left ..
    _ ≤ p.credit := Nat.floor_le h

/-- One round of the send loop as the pacer sees it: the rate it is refilled at, the time since
the round before, and the shards taken. -/
structure Round where
  rate : ℚ
  elapsed : ℚ
  taken : ℕ

namespace Round

/-- What a round does to the bucket. -/
def turn (r : Round) : TokenBucket.Turn ℚ := ⟨r.rate * r.elapsed, burstCap r.rate, r.taken⟩

def refilled (r : Round) (p : Pacer) : Pacer := p.refill (p.lastRefill + r.elapsed) r.rate

end Round

def shards (rounds : List Round) : ℕ := (rounds.map Round.taken).sum

/-- What the rates allow for the time that passes. -/
def paced (rounds : List Round) : ℚ := (rounds.map fun r => r.rate * r.elapsed).sum

/-- Rounds at positive rates that take no more than the budget. -/
def rounds : Labelled.System Pacer Round where
  init p := ∃ now, p = new now
  next r p :=
    if 0 < r.rate ∧ 0 ≤ r.elapsed ∧ r.taken ≤ (r.refilled p).budget then
      some (consume^[r.taken] (r.refilled p))
    else none

variable {p p' : Pacer} {r : Round}

theorem next_rounds : rounds.next r p = some p' ↔
    (0 < r.rate ∧ 0 ≤ r.elapsed ∧ r.taken ≤ (r.refilled p).budget) ∧
      consume^[r.taken] (r.refilled p) = p' := by
  unfold rounds
  dsimp only
  split_ifs with h <;> simp [h]

theorem credit_refilled (h : 0 ≤ r.elapsed) :
    (r.refilled p).credit = r.turn.filled p.credit := by
  have helapsed : max (p.lastRefill + r.elapsed - p.lastRefill) 0 = r.elapsed := by
    rw [add_sub_cancel_left, max_eq_left h]
  rw [Round.refilled, refill, helapsed, mul_comm]
  rfl

/-- Right after a refill the credit is not below zero and within the burst. -/
theorem credit_refilled_mem (hp : 0 ≤ p.credit) (hrate : 0 < r.rate) (helapsed : 0 ≤ r.elapsed) :
    0 ≤ (r.refilled p).credit ∧ (r.refilled p).credit ≤ burstCap r.rate := by
  rw [credit_refilled helapsed]
  constructor
  · apply le_min
    · exact add_nonneg hp (mul_nonneg hrate.le helapsed)
    · exact burstCap_nonneg r.rate
  · exact min_le_right ..

/-- A round is a turn of the bucket that spends no more than is in it. -/
theorem credit_next (hp : 0 ≤ p.credit) (hn : rounds.next r p = some p') :
    p'.credit = r.turn.after p.credit ∧ 0 ≤ p'.credit ∧ p'.credit ≤ burstCap r.rate := by
  obtain ⟨⟨hrate, helapsed, htaken⟩, rfl⟩ := next_rounds.mp hn
  obtain ⟨hnonneg, hle⟩ := credit_refilled_mem hp hrate helapsed
  have hspent : (r.taken : ℚ) ≤ (r.refilled p).credit :=
    le_trans (by exact_mod_cast htaken) (budget_le_credit hnonneg)
  have hpos : (0 : ℚ) ≤ r.taken := Nat.cast_nonneg _
  rw [credit_consume_iterate]
  refine ⟨?_, by linarith, by linarith⟩
  rw [credit_refilled helapsed]
  rfl

/-- The rounds of a run are turns of the bucket. -/
theorem credit_exec {rs : List Round} (hp : 0 ≤ p.credit)
    (he : Labelled.exec rounds rs p = some p') :
    p'.credit = TokenBucket.levelAfter p.credit (rs.map Round.turn) ∧ 0 ≤ p'.credit := by
  induction rs generalizing p with
  | nil =>
    cases he
    exact ⟨rfl, hp⟩
  | cons r rs ih =>
    rw [Labelled.exec_cons, Option.bind_eq_some_iff] at he
    obtain ⟨t, hn, he⟩ := he
    obtain ⟨heq, hnonneg, -⟩ := credit_next hp hn
    rw [List.map_cons, TokenBucket.levelAfter_cons, ← heq]
    exact ih hnonneg he

theorem sum_spent (rs : List Round) :
    ((rs.map Round.turn).map TokenBucket.Turn.spent).sum = (shards rs : ℚ) := by
  rw [shards, Nat.cast_list_sum, List.map_map, List.map_map]
  rfl

theorem sum_earned (rs : List Round) :
    ((rs.map Round.turn).map TokenBucket.Turn.earned).sum = paced rs := by
  rw [paced, List.map_map]
  rfl

/-- No stretch takes more than the credit at its start above what is paced. -/
theorem shards_le {rs : List Round} (hp : 0 ≤ p.credit)
    (he : Labelled.exec rounds rs p = some p') : (shards rs : ℚ) ≤ p.credit + paced rs := by
  obtain ⟨heq, hnonneg⟩ := credit_exec hp he
  have hbound := TokenBucket.levelAfter_add_spent_le p.credit (rs.map Round.turn)
  rw [← heq, sum_spent, sum_earned] at hbound
  linarith

/-- Nor more than the burst of its first refill above what is paced after that. -/
theorem shards_le_burstCap {rs : List Round} (hp : 0 ≤ p.credit)
    (he : Labelled.exec rounds (r :: rs) p = some p') :
    (shards (r :: rs) : ℚ) ≤ burstCap r.rate + paced rs := by
  obtain ⟨heq, hnonneg⟩ := credit_exec hp he
  have hbound := TokenBucket.levelAfter_add_spent_le_size p.credit r.turn (rs.map Round.turn)
  rw [← List.map_cons, ← heq, sum_spent, sum_earned] at hbound
  exact (le_add_of_nonneg_left hnonneg).trans hbound

/-- The credit is at its bounds after a round, right after every refill, and over every stretch:
the shards taken are at most what is paced and one burst, be it that of the last round before the
stretch or that of its first. -/
structure Conforming (before : List Round) (p : Pacer) : Prop where
  nonneg : 0 ≤ p.credit
  held : ∀ r ∈ before.getLast?, p.credit ≤ burstCap r.rate
  refilled : ∀ r : Round, 0 < r.rate → 0 ≤ r.elapsed →
    0 ≤ (r.refilled p).credit ∧ (r.refilled p).credit ≤ burstCap r.rate
  stretch : ∀ rs p', Labelled.exec rounds rs p = some p' →
    (shards rs : ℚ) ≤ p.credit + paced rs ∧
      (∀ r ∈ before.getLast?, (shards rs : ℚ) ≤ burstCap r.rate + paced rs) ∧
      ∀ r ∈ rs.head?, (shards rs : ℚ) ≤ burstCap r.rate + paced rs.tail

/-- However the rates move and however long the loop idles, a run of it never lets more than one
burst above the paced amount onto the link, in any stretch of its rounds. -/
theorem pacer_conforms {before : List Round} {now : ℚ}
    (h : Labelled.exec rounds before (new now) = some p) : Conforming before p := by
  have hnonneg : 0 ≤ p.credit := (credit_exec le_rfl h).2
  have hheld : ∀ r ∈ before.getLast?, p.credit ≤ burstCap r.rate := by
    intro r hr
    obtain ⟨earlier, rfl⟩ := List.getLast?_eq_some_iff.mp hr
    rw [Labelled.exec_append, Option.bind_eq_some_iff] at h
    obtain ⟨t, ht, h⟩ := h
    rw [Labelled.exec_cons, Option.bind_eq_some_iff] at h
    obtain ⟨t', hn, h⟩ := h
    cases h
    exact (credit_next (credit_exec le_rfl ht).2 hn).2.2
  constructor
  · exact hnonneg
  · exact hheld
  · intro r hrate helapsed
    exact credit_refilled_mem hnonneg hrate helapsed
  · intro rs p' he
    have hbound := shards_le hnonneg he
    refine ⟨hbound, fun r hr => ?_, fun r hr => ?_⟩
    · exact hbound.trans (add_le_add (hheld r hr) le_rfl)
    · cases rs with
      | nil => cases hr
      | cons first rs =>
        cases hr
        exact shards_le_burstCap hnonneg he

/-- A thousand shards a second for ten milliseconds, and a second of idling after them: the burst
is four shards, not a thousand. -/
theorem pacer_conforms_idle : ∃ p, Labelled.exec rounds
    [⟨1000, 1 / 100, 4⟩, ⟨1000, 1, 0⟩] (new 0) = some p ∧ p.credit = 4 ∧
      Conforming [⟨1000, 1 / 100, 4⟩, ⟨1000, 1, 0⟩] p := by
  obtain ⟨p, hrun, hcredit⟩ : ∃ p, Labelled.exec rounds
      [⟨1000, 1 / 100, 4⟩, ⟨1000, 1, 0⟩] (new 0) = some p ∧ p.credit = 4 := by
    refine ⟨⟨4, 101 / 100, false⟩, ?_, rfl⟩
    decide +kernel
  exact ⟨p, hrun, hcredit, pacer_conforms hrun⟩

end Pacer
end Scuttlecast
