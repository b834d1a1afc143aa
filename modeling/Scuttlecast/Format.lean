import Scuttlecast.Duration
import Scuttlecast.Library.Smoothing
import Mathlib.Data.Rat.Floor

/-! What is printed of the progress of a transfer: a time, and the time left at a smoothed rate.
Rates are exact numbers. -/
namespace Scuttlecast

def unknown : String := "unknown"

/-- A number under `{:02}`. -/
def twoDigits (n : ℕ) : String := if n < 10 then "0" ++ toString n else toString n

/-- A time in seconds. -/
structure Elapsed where
  duration : ℚ

def Elapsed.fmt (e : Elapsed) : String :=
  let seconds := ⌊e.duration⌋₊
  match seconds / 3600 with
  | 0 => toString (seconds / 60) ++ "m" ++ twoDigits (seconds % 60) ++ "s"
  | hours => toString hours ++ "h" ++ twoDigits (seconds / 60 % 60) ++ "m" ++
      twoDigits (seconds % 60) ++ "s"

structure Eta where
  bytesLeft : Option ℕ
  bytesPerSecond : ℚ

namespace Eta

def fmt (e : Eta) : Except Panic String :=
  match e.bytesLeft with
  | some left =>
    if 0 < e.bytesPerSecond then do
      let duration ← fromSecs (quotient left e.bytesPerSecond)
      .ok (Elapsed.mk duration).fmt
    else .ok unknown
  | none => .ok unknown

/-- Either `unknown` is printed, or the number a `Duration` is made of is finite and fits one. -/
def Sound (e : Eta) : Prop :=
  e.fmt = .ok unknown ∨ ∃ left secs, e.bytesLeft = some left ∧
    quotient left e.bytesPerSecond = some secs ∧ 0 ≤ secs ∧ secs < 2 ^ 64 ∧
      e.fmt = .ok (Elapsed.mk secs).fmt

/-- Printing dies of nothing but a quotient that is too large. -/
theorem fmt_cases (e : Eta) :
    (∀ left ∈ e.bytesLeft, 0 < e.bytesPerSecond → left < 2 ^ 64 * e.bytesPerSecond) ∧ e.Sound ∨
      (∃ left ∈ e.bytesLeft, 0 < e.bytesPerSecond ∧ 2 ^ 64 * e.bytesPerSecond ≤ left) ∧
        e.fmt = .error
          (.expect "cannot convert float seconds to Duration: value is either too big or NaN") := by
  obtain ⟨bytesLeft, rate⟩ := e
  rcases bytesLeft with _ | left
  · exact .inl ⟨nofun, .inl rfl⟩
  by_cases hrate : 0 < rate
  swap
  · refine .inl ⟨fun _ _ h => absurd h hrate, .inl ?_⟩
    simp only [fmt, if_neg hrate]
  have hquotient : quotient left rate = some (left / rate) := if_neg hrate.ne'
  have hnonneg : 0 ≤ (left : ℚ) / rate := div_nonneg left.cast_nonneg hrate.le
  have hfmt : fmt ⟨some left, rate⟩ =
      fromSecs (some (left / rate)) >>= fun duration => .ok (Elapsed.mk duration).fmt := by
    simp only [fmt, if_pos hrate, hquotient]
  rcases lt_or_ge ((left : ℚ) / rate) (2 ^ 64) with hfits | hlarge
  · refine .inl ⟨?_, .inr ⟨left, left / rate, rfl, hquotient, hnonneg, hfits, ?_⟩⟩
    · rintro _ ⟨⟩ -
      exact (div_lt_iff₀ hrate).mp hfits
    · rw [hfmt, fromSecs_eq_ok.mpr ⟨rfl, hnonneg, hfits⟩, ok_bind]
  · refine .inr ⟨⟨left, rfl, hrate, (le_div_iff₀ hrate).mp hlarge⟩, ?_⟩
    rw [hfmt, fromSecs, if_neg hnonneg.not_gt, if_neg hlarge.not_gt]
    rfl

theorem sound_iff {e : Eta} : e.Sound ↔
    ∀ left ∈ e.bytesLeft, 0 < e.bytesPerSecond → left < 2 ^ 64 * e.bytesPerSecond := by
  rcases e.fmt_cases with ⟨hfits, hsound⟩ | ⟨⟨left, hleft, hrate, hlarge⟩, herror⟩
  · exact iff_of_true hsound hfits
  · refine iff_of_false ?_ fun h => (h left hleft hrate).not_ge hlarge
    rintro (hunknown | ⟨_, _, _, _, _, _, hok⟩)
    · rw [herror] at hunknown
      cases hunknown
    · rw [herror] at hok
      cases hok

end Eta

/-- `SMOOTHING` -/
abbrev smoothing : ℚ := 0.2

structure Smoothed where
  value : Option ℚ
  deriving DecidableEq

namespace Smoothed

def default : Smoothed := ⟨none⟩

def observe (s : Smoothed) (sample : ℚ) : ℚ × Smoothed :=
  let value := match s.value with
    | some previous => previous + smoothing * (sample - previous)
    | none => sample
  (value, ⟨some value⟩)

def current (s : Smoothed) : ℚ := s.value.getD 0

/-- After these samples, one at a time. -/
def fed (samples : List ℚ) : Smoothed :=
  samples.foldl (fun s sample => (s.observe sample).2) default

theorem fed_concat (samples : List ℚ) (sample : ℚ) :
    fed (samples ++ [sample]) = ((fed samples).observe sample).2 := by
  simp [fed]

theorem value_fed (samples : List ℚ) :
    (fed samples).value = Smoothing.after smoothing samples := by
  induction samples using List.reverseRecOn with
  | nil => rfl
  | append_singleton samples sample ih =>
    rw [fed_concat, Smoothing.after_concat, ← ih]
    simp only [observe, Smoothing.step]
    cases (fed samples).value <;> rfl

/-- The smoothed rate is the weighted mean of its samples. -/
theorem current_fed (samples : List ℚ) :
    (fed samples).current = Smoothing.mean smoothing samples := by
  rw [current, value_fed, Smoothing.getD_after]

theorem current_fed_nonneg {samples : List ℚ} (h : ∀ sample ∈ samples, 0 ≤ sample) :
    0 ≤ (fed samples).current := by
  rw [current_fed]
  exact Smoothing.mean_nonneg (by norm_num) (by norm_num) h

/-- It is positive as soon as one of them has been. -/
theorem not_current_fed_pos {samples : List ℚ} (h : ∀ sample ∈ samples, 0 ≤ sample) :
    ¬ 0 < (fed samples).current ↔ ∀ sample ∈ samples, sample = 0 := by
  rw [(current_fed_nonneg h).lt_iff_ne', not_not, current_fed,
    Smoothing.mean_eq_zero_iff (by norm_num) (by norm_num) h]

end Smoothed
end Scuttlecast
