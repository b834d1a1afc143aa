import Mathlib.Algebra.BigOperators.Ring.Finset
import Mathlib.Algebra.Order.Archimedean.Basic
import Mathlib.Algebra.Order.BigOperators.Ring.Finset
import Mathlib.Data.List.GetD
import Mathlib.Data.List.Induction
import Mathlib.Tactic.Linarith
import Mathlib.Tactic.Ring

/-! Exponential smoothing: the first sample is taken as it is, and each further one moves the value
a fixed part of the way towards itself. The value is a mean of the samples with weights that fall
geometrically with their age. -/
namespace Smoothing

section Ring

variable {K : Type*} [CommRing K] {a : K}

/-- The value after one more sample. -/
def step (a : K) (value : Option K) (sample : K) : K :=
  match value with
  | some previous => previous + a * (sample - previous)
  | none => sample

/-- The value after these samples, if there are any. -/
def after (a : K) (samples : List K) : Option K :=
  samples.foldl (fun value sample => some (step a value sample)) none

/-- The weight of sample `i` of `n`; the first stands for all that could have come before it. -/
def weight (a : K) (n i : ℕ) : K :=
  if i = 0 then (1 - a) ^ (n - 1) else a * (1 - a) ^ (n - 1 - i)

def mean (a : K) (samples : List K) : K :=
  ∑ i ∈ Finset.range samples.length, weight a samples.length i * samples.getD i 0

@[simp] theorem after_concat (samples : List K) (x : K) :
    after a (samples ++ [x]) = some (step a (after a samples) x) := by
  simp [after]

theorem weight_succ {n i : ℕ} (hi : i < n) : weight a (n + 1) i = (1 - a) * weight a n i := by
  unfold weight
  split_ifs with h
  · rw [← pow_succ']
    congr 1
    omega
  · have hage : n + 1 - 1 - i = n - 1 - i + 1 := by omega
    rw [hage, pow_succ]
    ring

theorem weight_last {n : ℕ} (hn : 0 < n) : weight a (n + 1) n = a := by
  rw [weight, if_neg hn.ne', Nat.add_sub_cancel, Nat.sub_self, pow_zero, mul_one]

@[simp] theorem mean_nil : mean a [] = 0 := rfl

@[simp] theorem mean_singleton (x : K) : mean a [x] = x := by
  simp [mean, weight]

theorem mean_concat {samples : List K} (h : samples ≠ []) (x : K) :
    mean a (samples ++ [x]) = (1 - a) * mean a samples + a * x := by
  have hlast : (samples ++ [x]).getD samples.length 0 = x := by simp
  unfold mean
  rw [List.length_append, List.length_singleton, Finset.sum_range_succ, hlast,
    weight_last (List.length_pos_iff.mpr h), Finset.mul_sum]
  congr 1
  apply Finset.sum_congr rfl
  intro i hi
  have hlt := Finset.mem_range.mp hi
  rw [weight_succ hlt, List.getD_append _ _ _ _ hlt, mul_assoc]

/-- The value is the mean, zero standing for none. -/
theorem getD_after (samples : List K) : (after a samples).getD 0 = mean a samples := by
  induction samples using List.reverseRecOn with
  | nil => rfl
  | append_singleton samples x ih =>
    rw [after_concat, Option.getD_some]
    rcases List.eq_nil_or_concat samples with rfl | ⟨init, last, rfl⟩
    · simp [after, step]
    · rw [List.concat_eq_append, after_concat, Option.getD_some] at ih
      rw [List.concat_eq_append, mean_concat (by simp), ← ih, after_concat]
      simp only [step]
      ring

/-- A stretch of zeros shrinks the mean by the same factor each time. -/
theorem mean_append_zeros (samples : List K) (n : ℕ) :
    mean a (samples ++ List.replicate n 0) = (1 - a) ^ n * mean a samples := by
  induction n with
  | zero => simp
  | succ n ih =>
    rw [List.replicate_succ', ← List.append_assoc]
    rcases List.eq_nil_or_concat (samples ++ List.replicate n 0) with hnil | ⟨init, last, h⟩
    · rw [List.append_eq_nil_iff] at hnil
      simp [hnil.1, hnil.2]
    · rw [mean_concat (by simp [h]), ih, mul_zero, add_zero, pow_succ']
      ring

theorem mean_map_mul (samples : List K) (c : K) :
    mean a (samples.map (· * c)) = mean a samples * c := by
  unfold mean
  rw [List.length_map, Finset.sum_mul]
  apply Finset.sum_congr rfl
  intro i hi
  have hlt := Finset.mem_range.mp hi
  rw [List.getD_eq_getElem _ _ (by simpa using hlt), List.getElem_map,
    List.getD_eq_getElem _ _ hlt, mul_assoc]

end Ring

section Ordered

variable {K : Type*} [Field K] [LinearOrder K] {a : K} {samples : List K}

theorem nonneg_append_zeros (h : ∀ x ∈ samples, 0 ≤ x) (n : ℕ) :
    ∀ x ∈ samples ++ List.replicate n 0, 0 ≤ x := by
  rw [List.forall_mem_append]
  exact ⟨h, fun x hx => (List.eq_of_mem_replicate hx).ge⟩

variable [IsStrictOrderedRing K] (h0 : 0 < a) (h1 : a < 1)
include h0 h1

theorem weight_pos (n i : ℕ) : 0 < weight a n i := by
  have hpow (k : ℕ) : 0 < (1 - a) ^ k := pow_pos (sub_pos.mpr h1) k
  unfold weight
  split_ifs
  · exact hpow _
  · exact mul_pos h0 (hpow _)

/-- Zeros bring the mean below any bound, from some length on. -/
theorem exists_mean_lt [Archimedean K] (samples : List K) {bound : K} (hbound : 0 < bound) :
    ∃ n, ∀ k, n ≤ k → mean a (samples ++ List.replicate k 0) < bound := by
  have hbase : 0 ≤ 1 - a := sub_nonneg.mpr h1.le
  have hbase' : 1 - a < 1 := sub_lt_self 1 h0
  rcases le_or_gt (mean a samples) 0 with hmean | hmean
  · refine ⟨0, fun k _ => ?_⟩
    rw [mean_append_zeros]
    exact (mul_nonpos_of_nonneg_of_nonpos (pow_nonneg hbase k) hmean).trans_lt hbound
  · obtain ⟨n, hn⟩ := exists_pow_lt_of_lt_one (div_pos hbound hmean) hbase'
    refine ⟨n, fun k hk => ?_⟩
    rw [mean_append_zeros]
    calc (1 - a) ^ k * mean a samples
        ≤ (1 - a) ^ n * mean a samples :=
          mul_le_mul_of_nonneg_right (pow_le_pow_of_le_one hbase hbase'.le hk) hmean.le
      _ < bound / mean a samples * mean a samples := mul_lt_mul_of_pos_right hn hmean
      _ = bound := div_mul_cancel₀ bound hmean.ne'

variable (hsamples : ∀ x ∈ samples, 0 ≤ x)
include hsamples

theorem term_nonneg {i : ℕ} (hi : i < samples.length) :
    0 ≤ weight a samples.length i * samples.getD i 0 := by
  rw [List.getD_eq_getElem _ _ hi]
  exact mul_nonneg (weight_pos h0 h1 _ _).le (hsamples _ (List.getElem_mem hi))

theorem mean_nonneg : 0 ≤ mean a samples :=
  Finset.sum_nonneg fun _ hi => term_nonneg h0 h1 hsamples (Finset.mem_range.mp hi)

/-- No sample is ever forgotten: the mean is zero only of zeros. -/
theorem mean_eq_zero_iff : mean a samples = 0 ↔ ∀ x ∈ samples, x = 0 := by
  unfold mean
  rw [Finset.sum_eq_zero_iff_of_nonneg fun i hi =>
    term_nonneg h0 h1 hsamples (Finset.mem_range.mp hi)]
  constructor
  · intro h x hx
    obtain ⟨i, hi, rfl⟩ := List.getElem_of_mem hx
    have hterm := h i (Finset.mem_range.mpr hi)
    rw [List.getD_eq_getElem _ _ hi] at hterm
    exact (mul_eq_zero.mp hterm).resolve_left (weight_pos h0 h1 _ _).ne'
  · intro h i hi
    rw [List.getD_eq_getElem _ _ (Finset.mem_range.mp hi), h _ (List.getElem_mem _), mul_zero]

end Ordered

end Smoothing
