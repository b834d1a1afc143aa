import Mathlib.Tactic.Common

/-! Machines that answer every call or fail at it: what a caller gets to see of a sequence of
calls, and states that no sequence of calls tells apart. -/
namespace Responding

/-- A call is answered from the state and leads to the next one, or it fails. -/
structure Machine (S I O E : Type) where
  step : I → S → Except E (O × S)

variable {S I O E : Type} {M : Machine S I O E} {s s' t t' : S}

/-- What the calls return, up to the first that fails. -/
def answers (M : Machine S I O E) : List I → S → List (Except E O)
  | [], _ => []
  | call :: rest, s =>
    match M.step call s with
    | .error e => [.error e]
    | .ok (answer, s') => .ok answer :: answers M rest s'

/-- Every further sequence of calls returns the same from both states. -/
def Alike (M : Machine S I O E) (s t : S) : Prop := ∀ calls, answers M calls s = answers M calls t

/-- Two steps that return the same and stay in the relation, if they do not fail. -/
inductive Matched (R : S → S → Prop) : Except E (O × S) → Except E (O × S) → Prop
  | failed (e : E) : Matched R (.error e) (.error e)
  | answered {s t : S} (answer : O) (h : R s t) : Matched R (.ok (answer, s)) (.ok (answer, t))

theorem Matched.bind {O' : Type} {R : S → S → Prop} {x y : Except E (O × S)}
    {f : O × S → Except E (O' × S)} (h : Matched R x y)
    (hf : ∀ answer s t, R s t → Matched R (f (answer, s)) (f (answer, t))) :
    Matched R (x >>= f) (y >>= f) := by
  cases h with
  | failed e => exact .failed e
  | answered answer h => exact hf answer _ _ h

/-- States in a relation that every call keeps cannot be told apart. -/
theorem alike_of_matched {R : S → S → Prop}
    (hR : ∀ call s t, R s t → Matched R (M.step call s) (M.step call t)) (h : R s t) :
    Alike M s t := by
  intro calls
  induction calls generalizing s t with
  | nil => rfl
  | cons call rest ih =>
    have hmatched := hR call s t h
    unfold answers
    generalize M.step call s = left, M.step call t = right at hmatched
    cases hmatched with
    | failed e => rfl
    | answered answer h => exact congrArg _ (ih h)

/-- An answer is shared, and so are all that come after it. -/
theorem Alike.step (h : Alike M s t) {call : I} {answer : O}
    (hs : M.step call s = .ok (answer, s')) :
    ∃ t', M.step call t = .ok (answer, t') ∧ Alike M s' t' := by
  have hone := h [call]
  simp only [answers, hs] at hone
  rcases ht : M.step call t with e | ⟨answer', t'⟩
  · simp [ht] at hone
  · simp only [ht, List.cons.injEq, Except.ok.injEq, and_true] at hone
    refine ⟨t', by rw [hone], fun rest => ?_⟩
    have hrest := h (call :: rest)
    simp only [answers, hs, ht, List.cons.injEq] at hrest
    exact hrest.2

end Responding
