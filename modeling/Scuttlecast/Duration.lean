import Scuttlecast.Machine
import Mathlib.Data.Rat.Cast.Order
import Mathlib.Tactic.NormNum

/-! Times in seconds, over exact numbers: how a `Duration` is made of a float, and when that fails.
Nothing is rounded to whole nanoseconds. -/
namespace Scuttlecast

/-- A reading of the clock, in nanoseconds. -/
def seconds (now : ℕ) : ℚ := now / 1000000000

/-- The quotient of two floats; there is no finite one by zero. -/
def quotient (a b : ℚ) : Option ℚ := if b = 0 then none else some (a / b)

/-- `Duration::from_secs_f64`, which dies of a number that is not finite, of one below zero and of
one too large for the seconds of a `Duration`. -/
def fromSecs : Option ℚ → Except Panic ℚ
  | some secs =>
    if secs < 0 then .error (.expect "cannot convert float seconds to Duration: value is negative")
    else if secs < 2 ^ 64 then .ok secs
    else .error
      (.expect "cannot convert float seconds to Duration: value is either too big or NaN")
  | none =>
    .error (.expect "cannot convert float seconds to Duration: value is either too big or NaN")

/-- What comes of a float is the float, if a `Duration` has room for it. -/
theorem fromSecs_eq_ok {x : Option ℚ} {secs : ℚ} :
    fromSecs x = .ok secs ↔ x = some secs ∧ 0 ≤ secs ∧ secs < 2 ^ 64 := by
  rcases x with _ | x
  · simp [fromSecs]
  · unfold fromSecs
    dsimp only
    split_ifs with hneg hlt
    · simp only [Option.some.injEq, false_iff, not_and]
      rintro rfl hnonneg
      exact absurd hneg hnonneg.not_gt
    · simp only [Except.ok.injEq, Option.some.injEq]
      constructor
      · rintro rfl
        exact ⟨rfl, not_lt.mp hneg, hlt⟩
      · exact fun h => h.1
    · simp only [Option.some.injEq, false_iff, not_and]
      rintro rfl _
      exact hlt

end Scuttlecast
