import Scuttlecast.Receiver.Report
import Scuttlecast.Sender.Report

/-! The estimates that both ends of a transfer show. -/
namespace Scuttlecast

/-- The estimate at a smoothed rate, of whatever samples, can be printed exactly when they allow
for it, in a stall up to some length; and such are the rates that sessions and send loops show, in
all their runs. -/
theorem estimates_fit_iff (announcedBytes : Option ℕ) (done : ℕ) (samples : List ℚ)
    (hsamples : ∀ sample ∈ samples, 0 ≤ sample) :
    (Eta.Sound ⟨bytesLeft announcedBytes done, (Smoothed.fed samples).current⟩ ↔
      Estimable announcedBytes done samples) ∧
    (∀ announced ∈ announcedBytes, done < announced → (∃ sample ∈ samples, sample ≠ 0) →
      ∃ n, ∀ k, Eta.Sound ⟨bytesLeft announcedBytes done,
        (Smoothed.fed (samples ++ List.replicate k 0)).current⟩ ↔ k < n) ∧
    (∀ (rs : ReedSolomon) (hello : Hello) (receiverId : ℕ) (r : Reporting),
      Labelled.Reachable (Reporting.runs rs hello receiverId) r →
        (r.progress.eta.Sound ↔
          Estimable r.progress.announcedBytes r.progress.receivedBytes r.samples)) ∧
    ∀ (config : Config) (gathered : List Message) (t : Ticking),
      Labelled.Reachable (Ticking.runs config gathered) t →
        ∀ eta, t.progress.eta = .ok eta → (eta.Sound ↔
          Estimable t.progress.announcedBytes (t.progress.blocksSent * t.progress.blockSize)
            (t.shown.map (· * (t.progress.blockSize : ℚ)))) := by
  refine ⟨eta_sound_iff hsamples, ?_, fun _ _ _ _ => Reporting.eta_sound_iff,
    fun _ _ _ h _ => Ticking.eta_sound_iff h⟩
  rintro announced rfl hleft hmoved
  exact exists_stall hleft hsamples hmoved

/-- A megabyte in the first second of a gigabyte, and then a stall of 167 samples. -/
theorem estimates_fit_iff_stalled : Eta.Sound ⟨bytesLeft (some 1000000000) 1000000,
    (Smoothed.fed ([1000000] ++ List.replicate 167 0)).current⟩ := by
  have hsample : ∀ sample ∈ [(1000000 : ℚ)], 0 ≤ sample :=
    List.forall_mem_singleton.mpr (by norm_num)
  apply (estimates_fit_iff _ _ _ (Smoothing.nonneg_append_zeros hsample 167)).1.mpr
  rintro _ ⟨⟩
  rw [Smoothing.mean_append_zeros, Smoothing.mean_singleton]
  norm_num

/-- One sample more and it is over. -/
theorem stalled_estimate_panics : (∀ sample ∈ (1000000 : ℚ) :: List.replicate 168 0, 0 ≤ sample) ∧
    ¬ Eta.Sound ⟨bytesLeft (some 1000000000) 1000000,
      (Smoothed.fed (1000000 :: List.replicate 168 0)).current⟩ ∧
    Eta.fmt ⟨bytesLeft (some 1000000000) 1000000,
        (Smoothed.fed (1000000 :: List.replicate 168 0)).current⟩ = .error
      (.expect "cannot convert float seconds to Duration: value is either too big or NaN") := by
  have hrate : (Smoothed.fed (1000000 :: List.replicate 168 0)).current =
      (1 - smoothing) ^ 168 * 1000000 := by
    rw [← List.singleton_append, Smoothed.current_fed, Smoothing.mean_append_zeros,
      Smoothing.mean_singleton]
  have hlarge : ¬ ∀ left ∈ bytesLeft (some 1000000000) 1000000,
      0 < (1 - smoothing) ^ 168 * 1000000 →
        (left : ℚ) < 2 ^ 64 * ((1 - smoothing) ^ 168 * 1000000) := by
    intro h
    have hlt := h 999000000 rfl (by norm_num)
    norm_num at hlt
  have hsample : ∀ sample ∈ [(1000000 : ℚ)], 0 ≤ sample :=
    List.forall_mem_singleton.mpr (by norm_num)
  have hsamples := Smoothing.nonneg_append_zeros hsample 168
  rw [hrate]
  refine ⟨hsamples, fun hsound => hlarge (Eta.sound_iff.mp hsound), ?_⟩
  rcases Eta.fmt_cases ⟨bytesLeft (some 1000000000) 1000000, (1 - smoothing) ^ 168 * 1000000⟩
    with ⟨hfits, -⟩ | ⟨-, herror⟩
  · exact absurd hfits hlarge
  · exact herror

end Scuttlecast
