import Scuttlecast.State

/-! When the time left can be printed: a stall shrinks the smoothed rate and never brings it to
zero, and what is left over it outgrows every `Duration`. -/
namespace Scuttlecast

/-- The bytes left are fewer than the samples, weighted by their age, would bring in the longest
time there is; or there is nothing to estimate, no size or no rate. -/
def Estimable (announcedBytes : Option ℕ) (done : ℕ) (samples : List ℚ) : Prop :=
  ∀ announced ∈ announcedBytes, (∀ sample ∈ samples, sample = 0) ∨
    ((announced - done : ℕ) : ℚ) < 2 ^ 64 * Smoothing.mean smoothing samples

variable {announcedBytes : Option ℕ} {announced done : ℕ} {samples : List ℚ}

/-- The estimate at the smoothed rate of the samples. -/
theorem eta_sound_iff (hsamples : ∀ sample ∈ samples, 0 ≤ sample) :
    Eta.Sound ⟨bytesLeft announcedBytes done, (Smoothed.fed samples).current⟩ ↔
      Estimable announcedBytes done samples := by
  rw [Eta.sound_iff, Estimable, ← Smoothed.current_fed, ← Smoothed.not_current_fed_pos hsamples]
  rcases announcedBytes with _ | announced
  · simp [bytesLeft]
  · simp only [bytesLeft, Option.map_some, Option.mem_def, Option.some.injEq, forall_eq']
    exact imp_iff_not_or

/-- After a stall the estimate rests on what the rate was, shrunk once for every sample. -/
theorem sound_stalled_iff (hsamples : ∀ sample ∈ samples, 0 ≤ sample) (k : ℕ) :
    Eta.Sound ⟨bytesLeft (some announced) done,
        (Smoothed.fed (samples ++ List.replicate k 0)).current⟩ ↔
      (∀ sample ∈ samples, sample = 0) ∨ ((announced - done : ℕ) : ℚ) <
        2 ^ 64 * ((1 - smoothing) ^ k * (Smoothed.fed samples).current) := by
  have hzeros : (∀ sample ∈ samples ++ List.replicate k 0, sample = 0) ↔
      ∀ sample ∈ samples, sample = 0 := by
    rw [List.forall_mem_append]
    exact and_iff_left fun sample hsample => List.eq_of_mem_replicate hsample
  rw [eta_sound_iff (Smoothing.nonneg_append_zeros hsamples k), Estimable,
    Smoothing.mean_append_zeros, Smoothed.current_fed]
  simp only [Option.mem_def, Option.some.injEq, forall_eq', hzeros]

/-- An estimate that a stall has made too large stays so for as long as the stall goes on. -/
theorem sound_stalled_of_le (hsamples : ∀ sample ∈ samples, 0 ≤ sample) {k l : ℕ} (hle : k ≤ l)
    (h : Eta.Sound ⟨bytesLeft (some announced) done,
      (Smoothed.fed (samples ++ List.replicate l 0)).current⟩) :
    Eta.Sound ⟨bytesLeft (some announced) done,
      (Smoothed.fed (samples ++ List.replicate k 0)).current⟩ := by
  refine (sound_stalled_iff hsamples k).mpr (((sound_stalled_iff hsamples l).mp h).imp_right ?_)
  intro hfits
  have hshrunk : (1 - smoothing) ^ l ≤ (1 - smoothing) ^ k :=
    pow_le_pow_of_le_one (by norm_num) (by norm_num) hle
  refine hfits.trans_le (mul_le_mul_of_nonneg_left ?_ (by norm_num))
  exact mul_le_mul_of_nonneg_right hshrunk (Smoothed.current_fed_nonneg hsamples)

/-- Whatever a transfer of known size has done so far: short of its end there is a length of a stall
up to which, and no further, the estimate can be printed. -/
theorem exists_stall (hleft : done < announced) (hsamples : ∀ sample ∈ samples, 0 ≤ sample)
    (hmoved : ∃ sample ∈ samples, sample ≠ 0) :
    ∃ n, ∀ k, Eta.Sound ⟨bytesLeft (some announced) done,
      (Smoothed.fed (samples ++ List.replicate k 0)).current⟩ ↔ k < n := by
  classical
  have hbound : (0 : ℚ) < ((announced - done : ℕ) : ℚ) / 2 ^ 64 := by
    have hpos : (0 : ℚ) < ((announced - done : ℕ) : ℚ) := by
      exact_mod_cast Nat.sub_pos_of_lt hleft
    positivity
  have hlong : ∃ k, ¬ Eta.Sound ⟨bytesLeft (some announced) done,
      (Smoothed.fed (samples ++ List.replicate k 0)).current⟩ := by
    obtain ⟨n, hn⟩ := Smoothing.exists_mean_lt (a := smoothing) (by norm_num) (by norm_num) samples
      hbound
    refine ⟨n, fun hsound => ?_⟩
    rcases (sound_stalled_iff hsamples n).mp hsound with hzero | hfits
    · obtain ⟨sample, hsample, hne⟩ := hmoved
      exact hne (hzero sample hsample)
    · have hlt := (lt_div_iff₀' (by norm_num)).mp (hn n le_rfl)
      rw [Smoothing.mean_append_zeros, ← Smoothed.current_fed] at hlt
      exact hfits.not_gt hlt
  refine ⟨Nat.find hlong, fun k => ?_⟩
  rw [Nat.lt_find_iff]
  constructor
  · exact fun hsound m hm => not_not.mpr (sound_stalled_of_le hsamples hm hsound)
  · exact fun h => not_not.mp (h k le_rfl)

end Scuttlecast
