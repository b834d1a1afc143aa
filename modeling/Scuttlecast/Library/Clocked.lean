import Scuttlecast.Library.Labelled

/-! Labelled systems whose actions read a clock, and what their runs can reach while no reading is
below one before it. -/
namespace Labelled

variable {S A : Type*} {M : System S A} {readings : A → List ℕ}

/-- The system together with the last reading. An action is enabled where it is in the system alone
and its readings go on from there. -/
def clocked (M : System S A) (readings : A → List ℕ) : System (S × ℕ) A where
  init s := M.init s.1
  next a s :=
    if (s.2 :: readings a).Pairwise (· ≤ ·) then
      (M.next a s.1).map fun t => (t, (readings a).getLastD s.2)
    else none

/-- Some continuation of the run, at readings from this one on, ends in a state that meets `goal`
at its last reading. -/
def CanReachAt (M : System S A) (readings : A → List ℕ) (goal : S → ℕ → Prop) (s : S) (now : ℕ) :
    Prop :=
  CanReach (clocked M readings) (fun t => goal t.1 t.2) (s, now)

theorem clocked_next {a : A} {s t : S × ℕ} (hn : (clocked M readings).next a s = some t) :
    M.next a s.1 = some t.1 := by
  simp only [clocked] at hn
  split_ifs at hn
  obtain ⟨t', ht', rfl⟩ := Option.map_eq_some_iff.mp hn
  exact ht'

theorem exec_of_clocked {as : List A} {s t : S × ℕ} (h : exec (clocked M readings) as s = some t) :
    exec M as s.1 = some t.1 := by
  induction as generalizing s with
  | nil =>
    rw [exec_nil, Option.some.injEq] at h
    rw [exec_nil, h]
  | cons a as ih =>
    rw [exec_cons, Option.bind_eq_some_iff] at h
    obtain ⟨u, hu, hrest⟩ := h
    exact exec_cons_of_eq (clocked_next hu) (ih hrest)

namespace CanReachAt

variable {goal goal' : S → ℕ → Prop} {s t : S} {a : A} {now time : ℕ}

theorem here (h : goal s now) : CanReachAt M readings goal s now := CanReach.here h

/-- A step at one reading or several equal ones, none before the clock. -/
theorem step (htime : now ≤ time) (hn : M.next a s = some t)
    (hread : readings a ≠ [] ∧ ∀ reading ∈ readings a, reading = time)
    (h : CanReachAt M readings goal t time) : CanReachAt M readings goal s now := by
  have hsorted : (now :: readings a).Pairwise (· ≤ ·) := by
    refine List.pairwise_cons.mpr ⟨fun reading hmem => hread.2 reading hmem ▸ htime, ?_⟩
    exact List.pairwise_of_forall_mem_list fun x hx y hy =>
      Nat.le_of_eq ((hread.2 x hx).trans (hread.2 y hy).symm)
  have hlast : (readings a).getLastD now = time := by
    rw [List.getLastD_eq_getLast?, List.getLast?_eq_some_getLast hread.1, Option.getD_some]
    exact hread.2 _ (List.getLast_mem hread.1)
  refine CanReach.step (a := a) (t := (t, time)) ?_ h
  simp only [clocked]
  rw [if_pos hsorted, hn, Option.map_some, hlast]

theorem once (htime : now ≤ time) (hn : M.next a s = some t) (hread : readings a = [time])
    (h : CanReachAt M readings goal t time) : CanReachAt M readings goal s now :=
  step htime hn ⟨by simp [hread], by simp [hread]⟩ h

/-- A step that does not look at the clock. -/
theorem untimed (hn : M.next a s = some t) (hread : readings a = [])
    (h : CanReachAt M readings goal t now) : CanReachAt M readings goal s now := by
  refine CanReach.step (a := a) (t := (t, now)) ?_ h
  simp [clocked, hread, hn]

theorem trans (h : CanReachAt M readings goal s now)
    (hg : ∀ t time, goal t time → CanReachAt M readings goal' t time) :
    CanReachAt M readings goal' s now :=
  CanReach.trans h fun t ht => hg t.1 t.2 ht

theorem mono (h : CanReachAt M readings goal s now) (hg : ∀ t time, goal t time → goal' t time) :
    CanReachAt M readings goal' s now :=
  CanReach.mono h fun t ht => hg t.1 t.2 ht

/-- What every step of the system keeps still holds where the goal is met. -/
theorem keeping {I : S → Prop} (h : CanReachAt M readings goal s now) (hI : I s)
    (hstep : ∀ a s s', I s → M.next a s = some s' → I s') :
    CanReachAt M readings (fun t time => goal t time ∧ I t) s now := by
  let J (t : S × ℕ) : Prop := I t.1
  have hkeeps : ∀ a t t', J t → (clocked M readings).next a t = some t' → J t' :=
    fun a t t' ht hn => hstep a t.1 t'.1 ht (clocked_next hn)
  exact CanReach.keeping h hI hkeeps

/-- A run with its readings is a run. -/
theorem canReach (h : CanReachAt M readings goal s now) :
    CanReach M (fun t => ∃ time, goal t time) s := by
  obtain ⟨as, t, hexec, hgoal⟩ := h
  exact ⟨as, t.1, exec_of_clocked hexec, t.2, hgoal⟩

/-- From a reachable state the goal is met in a reachable one. -/
theorem reachable (h : CanReachAt M readings goal s now) (hs : Reachable M s) :
    CanReachAt M readings (fun t time => Reachable M t ∧ goal t time) s now :=
  (h.keeping hs fun _ _ _ hr hn => hr.step trivial hn).mono fun _ _ ht => ⟨ht.2, ht.1⟩

end CanReachAt

/-- If from every state of a set, at any reading, the goal is within reach, or a state of the set of
lower rank, then the goal is within reach from all of them. -/
theorem canReachAt_of_rank {goal : S → ℕ → Prop} {I : S → ℕ → Prop} (rank : S → ℕ)
    (hstep : ∀ s now, I s now → CanReachAt M readings
      (fun t time => goal t time ∨ I t time ∧ rank t < rank s) s now) {s : S} {now : ℕ}
    (h : I s now) : CanReachAt M readings goal s now :=
  canReach_of_rank (M := clocked M readings) (I := fun t => I t.1 t.2) (fun t => rank t.1)
    (fun t ht => hstep t.1 t.2 ht) h

end Labelled
