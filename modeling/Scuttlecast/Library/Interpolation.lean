import Mathlib.LinearAlgebra.Lagrange
import Mathlib.FieldTheory.Finite.GaloisField

/-! Erasure codes from interpolation: over an alphabet with the size of a finite field, a word is
extended by the values of its interpolating polynomial, and any part of the extended word that is
as long as the word determines it. -/
namespace Interpolation

open Polynomial Finset

variable {F : Type*} [Field F] {x : ℕ → F} {n o : ℕ}

/-- The polynomial through the first `o` entries of `v`, at the points `x`. -/
noncomputable def through (x : ℕ → F) (o : ℕ) (v : ℕ → F) : F[X] :=
  Lagrange.interpolate (range o) x v

theorem eval_through (hx : Set.InjOn x (range n)) (ho : o ≤ n) (v : ℕ → F) {i : ℕ} (hi : i < o) :
    (through x o v).eval (x i) = v i :=
  Lagrange.eval_interpolate_at_node v (hx.mono (by simpa using ho)) (mem_range.mpr hi)

/-- Polynomials through `o` entries that agree at `o` of the points are the same. -/
theorem through_eq_of_agree (hx : Set.InjOn x (range n)) (ho : o ≤ n) {v v' : ℕ → F}
    {t : Finset ℕ} (ht : t ⊆ range n) (hcard : o ≤ #t)
    (heq : ∀ i ∈ t, (through x o v).eval (x i) = (through x o v').eval (x i)) :
    through x o v = through x o v' := by
  have hdegree (v : ℕ → F) : (through x o v).degree < #t := by
    have hinj : Set.InjOn x (range o) := hx.mono (by simpa using ho)
    have hlt := Lagrange.degree_interpolate_lt v hinj
    rw [card_range] at hlt
    exact hlt.trans_le (by exact_mod_cast hcard)
  exact Polynomial.eq_of_degrees_lt_of_eval_index_eq t (hx.mono (coe_subset.mpr ht)) (hdegree v)
    (hdegree v') heq

/-- An extension of words of length `o` to words of length `n` which any `o` places determine. -/
structure Code (A : Type*) (o n : ℕ) where
  extend : (ℕ → A) → ℕ → A
  systematic : ∀ v, ∀ i < o, extend v i = v i
  separates : ∀ v v', ∀ t : Finset ℕ, t ⊆ range n → o ≤ #t →
    (∀ i ∈ t, extend v i = extend v' i) → ∀ i < o, v i = v' i

/-- As many different points as the alphabet has symbols. -/
theorem exists_injOn {A : Type*} [Finite A] [Nonempty A] (hn : n ≤ Nat.card A) :
    ∃ x : ℕ → A, Set.InjOn x (range n) := by
  let e := Finite.equivFin A
  refine ⟨fun i => if h : i < Nat.card A then e.symm ⟨i, h⟩ else Classical.arbitrary A, ?_⟩
  intro i hi j hj heq
  simp only [coe_range, Set.mem_Iio] at hi hj
  simpa [hi.trans_le hn, hj.trans_le hn] using heq

theorem nonempty_code {A : Type*} [Finite A] {p m : ℕ} [Fact p.Prime] (hm : m ≠ 0)
    (hcard : Nat.card A = p ^ m) (ho : o ≤ n) (hn : n ≤ p ^ m) : Nonempty (Code A o n) := by
  have hfield : Nat.card (GaloisField p m) = p ^ m := GaloisField.card p m hm
  have : Finite (GaloisField p m) :=
    Nat.finite_of_card_ne_zero (by rw [hfield]; exact pow_ne_zero _ (Fact.out : p.Prime).ne_zero)
  obtain ⟨e⟩ : Nonempty (A ≃ GaloisField p m) := Finite.card_eq.mp (hcard.trans hfield.symm)
  obtain ⟨x, hx⟩ := exists_injOn (A := GaloisField p m) (hn.trans_eq hfield.symm)
  have hsystematic (v : ℕ → A) (i : ℕ) (hi : i < o) :
      e.symm ((through x o fun k => e (v k)).eval (x i)) = v i := by
    rw [eval_through hx ho _ hi, e.symm_apply_apply]
  refine ⟨⟨fun v i => e.symm ((through x o fun k => e (v k)).eval (x i)), hsystematic, ?_⟩⟩
  intro v v' t ht hcard heq i hi
  have hsame := through_eq_of_agree hx ho ht hcard fun k hk => e.symm.injective (heq k hk)
  rw [← hsystematic v i hi, hsame, hsystematic v' i hi]

end Interpolation
