import Mathlib.Data.List.Nodup
import Mathlib.Order.Nat
import Mathlib.Tactic.Common

/-! Things done again only after a while. A record holds when each key was last granted and may
forget the keys that do not count any more; set against the whole history of grants it decides as
the history would. -/
namespace Cooldown

variable {K : Type*} {period clock now : ℕ} {live live' : K → Prop} {record record' : K → Option ℕ}
  {history : List (ℕ × K)} {keys : List K} {k : K}

/-- By the record, the last grant of the key is at least a period ago. -/
def Rested (period : ℕ) (record : K → Option ℕ) (now : ℕ) (k : K) : Prop :=
  ∀ t, record k = some t → t + period ≤ now

/-- Every grant of the key was at least a period ago. -/
def Overdue (period : ℕ) (history : List (ℕ × K)) (now : ℕ) (k : K) : Prop :=
  ∀ e ∈ history, e.2 = k → e.1 + period ≤ now

instance [DecidableEq K] (period : ℕ) (history : List (ℕ × K)) (now : ℕ) (k : K) :
    Decidable (Overdue period history now k) :=
  inferInstanceAs (Decidable (∀ e ∈ history, e.2 = k → e.1 + period ≤ now))

/-- The record holds the last grant of a key or none, and of a key that counts it holds one if
there ever was one. -/
structure Remembers (period clock : ℕ) (live : K → Prop) (record : K → Option ℕ)
    (history : List (ℕ × K)) : Prop where
  past : ∀ e ∈ history, e.1 ≤ clock
  spaced : history.Pairwise fun e e' => e.2 = e'.2 → e.1 + period ≤ e'.1
  sent : ∀ k t, record k = some t → (t, k) ∈ history
  last : ∀ k t, record k = some t → ∀ e ∈ history, e.2 = k → e.1 ≤ t
  known : ∀ e ∈ history, live e.2 → ∃ t, record e.2 = some t

theorem Remembers.nil (h : ∀ k, record k = none) : Remembers period clock live record [] := by
  constructor <;> simp [h]

theorem Remembers.later (h : Remembers period clock live record history) (hclock : clock ≤ now) :
    Remembers period now live record history :=
  ⟨fun e he => (h.past e he).trans hclock, h.spaced, h.sent, h.last, h.known⟩

/-- Of the keys that go on counting nothing is forgotten, and nothing is made up. -/
theorem Remembers.forget (h : Remembers period clock live record history)
    (hkept : ∀ k t, record' k = some t → record k = some t)
    (hlive : ∀ k, live' k → live k ∧ record' k = record k) :
    Remembers period clock live' record' history := by
  refine ⟨h.past, h.spaced, fun k t ht => h.sent k t (hkept k t ht),
    fun k t ht => h.last k t (hkept k t ht), fun e he hl => ?_⟩
  obtain ⟨hl, heq⟩ := hlive e.2 hl
  rw [heq]
  exact h.known e he hl

/-- The record decides as the history would. -/
theorem Remembers.rested_iff (h : Remembers period clock live record history) (hl : live k) :
    Rested period record now k ↔ Overdue period history now k := by
  constructor
  · rintro hrested e he rfl
    obtain ⟨t, ht⟩ := h.known e he hl
    have hlast := h.last e.2 t ht e he rfl
    have hdue := hrested t ht
    omega
  · exact fun hover t ht => hover _ (h.sent k t ht) rfl

/-- Keys that are overdue are granted, each of them once. -/
theorem Remembers.grant (h : Remembers period clock live record history) (hclock : clock ≤ now)
    (hnodup : keys.Nodup) (hover : ∀ k ∈ keys, Overdue period history now k)
    (hgranted : ∀ k ∈ keys, record' k = some now) (hother : ∀ k ∉ keys, record' k = record k) :
    Remembers period now live record' (history ++ keys.map fun k => (now, k)) := by
  have hnew : ∀ e, e ∈ keys.map (fun k => (now, k)) ↔ e.1 = now ∧ e.2 ∈ keys := by
    rintro ⟨t, k⟩
    simp only [List.mem_map, Prod.mk.injEq]
    constructor
    · rintro ⟨x, hx, rfl, rfl⟩
      exact ⟨rfl, hx⟩
    · rintro ⟨rfl, hx⟩
      exact ⟨k, hx, rfl, rfl⟩
  constructor
  · intro e he
    rcases List.mem_append.mp he with he | he
    · exact (h.past e he).trans hclock
    · exact ((hnew e).mp he).1.le
  · refine List.pairwise_append.mpr ⟨h.spaced, ?_, fun e he e' he' heq => ?_⟩
    · exact List.pairwise_map.mpr (hnodup.imp fun hne heq => absurd heq hne)
    · obtain ⟨htime, hkey⟩ := (hnew e').mp he'
      rw [htime]
      exact hover e'.2 hkey e he heq
  · intro k t ht
    apply List.mem_append.mpr
    by_cases hk : k ∈ keys
    · rw [hgranted k hk] at ht
      exact .inr ((hnew _).mpr ⟨(Option.some.inj ht).symm, hk⟩)
    · rw [hother k hk] at ht
      exact .inl (h.sent k t ht)
  · intro k t ht e he heq
    by_cases hk : k ∈ keys
    · rw [hgranted k hk, Option.some.injEq] at ht
      rcases List.mem_append.mp he with he | he
      · exact ((h.past e he).trans hclock).trans ht.le
      · exact ((hnew e).mp he).1.le.trans ht.le
    · rw [hother k hk] at ht
      rcases List.mem_append.mp he with he | he
      · exact h.last k t ht e he heq
      · exact absurd (heq ▸ ((hnew e).mp he).2) hk
  · intro e he hl
    by_cases hk : e.2 ∈ keys
    · exact ⟨now, hgranted _ hk⟩
    · rw [hother _ hk]
      rcases List.mem_append.mp he with he | he
      · exact h.known e he hl
      · exact absurd ((hnew e).mp he).2 hk

end Cooldown
