import Mathlib.Data.List.Induction
import Mathlib.Tactic.Common

/-! Labelled systems with partial steps: runs, reachable states under a condition on the
steps, and the invariant rules. -/
namespace Labelled

/-- `next a s = none` says that the action `a` is not enabled in the state `s`. -/
structure System (S A : Type*) where
  init : S → Prop
  next : A → S → Option S

variable {S A : Type*} {M : System S A}

/-- The states reached from an initial one by steps that all meet `ok`. -/
inductive Reach (M : System S A) (ok : A → S → Prop) : S → Prop
  | start {s : S} (h : M.init s) : Reach M ok s
  | step {s s' : S} {a : A} (h : Reach M ok s) (hok : ok a s) (hn : M.next a s = some s') :
      Reach M ok s'

/-- Reachable by any steps whatever. -/
abbrev Reachable (M : System S A) : S → Prop := Reach M fun _ _ => True

theorem Reach.mono {ok ok' : A → S → Prop} (hok : ∀ a s, ok a s → ok' a s) {s : S}
    (h : Reach M ok s) : Reach M ok' s := by
  induction h with
  | start h => exact .start h
  | step _ ha hn ih => exact .step ih (hok _ _ ha) hn

theorem Reach.reachable {ok : A → S → Prop} {s : S} (h : Reach M ok s) : Reachable M s :=
  h.mono fun _ _ _ => trivial

/-- What holds initially and is kept by every admissible step holds in every state reached. -/
theorem Reach.invariant {ok : A → S → Prop} {I : S → Prop} (h0 : ∀ s, M.init s → I s)
    (hstep : ∀ a s s', ok a s → I s → M.next a s = some s' → I s') {s : S}
    (h : Reach M ok s) : I s := by
  induction h with
  | start h => exact h0 _ h
  | step _ ha hn ih => exact hstep _ _ _ ha ih hn

/-- The same rule on top of an invariant `J` already known of reachable states. -/
theorem Reach.invariant_on {ok : A → S → Prop} {I J : S → Prop}
    (hJ : ∀ s, Reachable M s → J s) (h0 : ∀ s, M.init s → I s)
    (hstep : ∀ a s s', ok a s → J s → J s' → I s → M.next a s = some s' → I s') {s : S}
    (h : Reach M ok s) : I s := by
  induction h with
  | start h => exact h0 _ h
  | step hr ha hn ih =>
    exact hstep _ _ _ ha (hJ _ hr.reachable) (hJ _ (hr.reachable.step trivial hn)) ih hn

/-- Execute a list of actions, stopping with `none` at the first that is not enabled. -/
def exec (M : System S A) : List A → S → Option S
  | [], s => some s
  | a :: rest, s => (M.next a s).bind (exec M rest)

@[simp] theorem exec_nil (s : S) : exec M [] s = some s := rfl

@[simp] theorem exec_cons (a : A) (rest : List A) (s : S) :
    exec M (a :: rest) s = (M.next a s).bind (exec M rest) := rfl

theorem exec_cons_of_eq {a : A} {as : List A} {s t : S} {u : Option S} (hn : M.next a s = some t)
    (he : exec M as t = u) : exec M (a :: as) s = u := by
  rw [exec_cons, hn, Option.bind_some, he]

theorem exec_append (as bs : List A) (s : S) :
    exec M (as ++ bs) s = (exec M as s).bind (exec M bs) := by
  induction as generalizing s with
  | nil => rfl
  | cons a as ih =>
    simp only [List.cons_append, exec_cons, Option.bind_assoc]
    congr 1
    funext t
    exact ih t

theorem exec_append_of_eq {as bs : List A} {s t : S} (h : exec M as s = some t) :
    exec M (as ++ bs) s = exec M bs t := by
  rw [exec_append, h, Option.bind_some]

theorem exec_concat_of_eq {as : List A} {a : A} {s t : S} (h : exec M as s = some t) :
    exec M (as ++ [a]) s = M.next a t := by
  rw [exec_append_of_eq h, exec_cons]
  cases M.next a t <;> rfl

/-- What holds of the empty run and is kept by one more action holds of every run and the state it
ends in. -/
theorem exec_induction {I : List A → S → Prop} {s : S} (h0 : I [] s)
    (hstep : ∀ as a t t', exec M as s = some t → I as t → M.next a t = some t' → I (as ++ [a]) t')
    {as : List A} {t : S} (he : exec M as s = some t) : I as t := by
  induction as using List.reverseRecOn generalizing t with
  | nil =>
    rw [exec_nil, Option.some.injEq] at he
    exact he ▸ h0
  | append_singleton as a ih =>
    rw [exec_append, Option.bind_eq_some_iff] at he
    obtain ⟨t', ht', he⟩ := he
    rw [exec_cons, Option.bind_eq_some_iff] at he
    obtain ⟨t'', hnext, he⟩ := he
    rw [exec_nil, Option.some.injEq] at he
    subst he
    exact hstep as a t' t'' ht' (ih ht') hnext

/-- A run on whose actions there is no condition to meet. -/
theorem Reach.exec_of_ok {ok : A → S → Prop} {as : List A} {s s' : S} (h : Reach M ok s)
    (hok : ∀ a ∈ as, ∀ s, ok a s) (he : exec M as s = some s') : Reach M ok s' := by
  induction as generalizing s with
  | nil => simp only [exec_nil, Option.some.injEq] at he; exact he ▸ h
  | cons a as ih =>
    rw [exec_cons, Option.bind_eq_some_iff] at he
    obtain ⟨t, ht, he⟩ := he
    exact ih (h.step (hok a List.mem_cons_self s) ht)
      (fun b hb => hok b (List.mem_cons_of_mem _ hb)) he

theorem Reach.exec {as : List A} {s s' : S} (h : Reachable M s)
    (he : Labelled.exec M as s = some s') : Reachable M s' :=
  h.exec_of_ok (fun _ _ _ => trivial) he

/-- A state is reachable exactly when some list of actions leads to it. -/
theorem reachable_iff_exec {s : S} :
    Reachable M s ↔ ∃ s₀ as, M.init s₀ ∧ exec M as s₀ = some s := by
  constructor
  · intro h
    induction h with
    | start h => exact ⟨_, [], h, rfl⟩
    | @step t t' a _ _ hn ih =>
      obtain ⟨s₀, as, h0, he⟩ := ih
      exact ⟨s₀, as ++ [a], h0, by simp [exec_append, he, hn]⟩
  · rintro ⟨s₀, as, h0, he⟩
    exact Reach.exec (.start h0) he

/-- What a run yields, if each of its steps yields a list. -/
def yields {B : Type*} (M : System S A) (f : A → S → List B) : List A → S → List B
  | [], _ => []
  | a :: rest, s => f a s ++ ((M.next a s).map (yields M f rest)).getD []

theorem yields_concat {B : Type*} {f : A → S → List B} {as : List A} {s t : S}
    (he : exec M as s = some t) (a : A) :
    yields M f (as ++ [a]) s = yields M f as s ++ f a t := by
  induction as generalizing s with
  | nil =>
    rw [exec_nil, Option.some.injEq] at he
    subst he
    rcases hnext : M.next a s with _ | t <;> simp [yields, hnext]
  | cons b as ih =>
    rw [exec_cons, Option.bind_eq_some_iff] at he
    obtain ⟨u, hu, he⟩ := he
    rw [List.cons_append, yields, yields, hu, Option.map_some, Option.map_some, Option.getD_some,
      Option.getD_some, ih he, List.append_assoc]

/-- Some continuation of the run ends in a state that meets `goal`. -/
def CanReach (M : System S A) (goal : S → Prop) (s : S) : Prop :=
  ∃ as s', exec M as s = some s' ∧ goal s'

theorem CanReach.here {goal : S → Prop} {s : S} (h : goal s) : CanReach M goal s :=
  ⟨[], s, rfl, h⟩

theorem CanReach.step {goal : S → Prop} {s t : S} {a : A} (hn : M.next a s = some t)
    (h : CanReach M goal t) : CanReach M goal s := by
  obtain ⟨as, s', he, hg⟩ := h
  exact ⟨a :: as, s', by simp [hn, he], hg⟩

theorem CanReach.trans {goal goal' : S → Prop} {s : S} (h : CanReach M goal s)
    (hg : ∀ t, goal t → CanReach M goal' t) : CanReach M goal' s := by
  obtain ⟨as, t, he, ht⟩ := h
  obtain ⟨bs, u, he', hu⟩ := hg t ht
  exact ⟨as ++ bs, u, (exec_append_of_eq he).trans he', hu⟩

theorem CanReach.mono {goal goal' : S → Prop} {s : S} (h : CanReach M goal s)
    (hg : ∀ t, goal t → goal' t) : CanReach M goal' s :=
  h.trans fun t ht => .here (hg t ht)

/-- What every step keeps still holds where the goal is met. -/
theorem CanReach.keeping {goal I : S → Prop} {s : S} (h : CanReach M goal s) (hI : I s)
    (hstep : ∀ a s s', I s → M.next a s = some s' → I s') :
    CanReach M (fun t => goal t ∧ I t) s := by
  obtain ⟨as, t, he, ht⟩ := h
  exact ⟨as, t, he, ht, exec_induction (I := fun _ t => I t) hI (fun _ a t t' _ => hstep a t t') he⟩

/-- If from every state of a set the goal is within reach, or a state of the set of lower rank, then
the goal is within reach from all of them. -/
theorem canReach_of_rank {goal I : S → Prop} (rank : S → ℕ)
    (hstep : ∀ s, I s → CanReach M (fun t => goal t ∨ I t ∧ rank t < rank s) s) {s : S} (h : I s) :
    CanReach M goal s := by
  induction hn : rank s using Nat.strongRecOn generalizing s with
  | ind n ih =>
    subst hn
    refine (hstep s h).trans fun t ht => ?_
    rcases ht with ht | ⟨ht, hlt⟩
    · exact .here ht
    · exact ih _ hlt ht rfl

/-- A set of states that no step leaves and that excludes the goal is one the goal is never
reached from. -/
theorem not_canReach_of_trap {goal I : S → Prop} (hI : ∀ s, I s → ¬ goal s)
    (hstep : ∀ a s s', I s → M.next a s = some s' → I s') {s : S} (h : I s) :
    ¬ CanReach M goal s := by
  rintro ⟨as, s', he, hg⟩
  induction as generalizing s with
  | nil => simp only [exec_nil, Option.some.injEq] at he; exact hI s h (he ▸ hg)
  | cons a as ih =>
    rw [exec_cons, Option.bind_eq_some_iff] at he
    obtain ⟨t, ht, he⟩ := he
    exact ih (hstep a s t h ht) he

end Labelled
