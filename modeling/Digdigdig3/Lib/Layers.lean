import Mathlib.Tactic
import Mathlib.Algebra.BigOperators.Ring.Finset
import Mathlib.FieldTheory.Finite.Basic

/-!
# Layers of a permutation over a field

A permutation of tuples is made of layers: powers of single elements and linear maps.

* `pow_injective_of_coprime`: a power whose exponent is prime to the order of the units.
* `diagonal_add_sum_injective`: each element times its own factor, plus the sum of all.
* `foldl_injective`: layers one after the other.
-/

namespace Digdigdig3

open Finset

/-- In a finite field, a power with an exponent prime to the order of the units is one-to-one. -/
theorem pow_injective_of_coprime {K : Type*} [Field K] [Fintype K] {n : ℕ}
    (h : n.Coprime (Fintype.card K - 1)) (hn : n ≠ 0) : Function.Injective fun x : K => x ^ n := by
  intro x y hxy
  have hpow : x ^ n = y ^ n := hxy
  by_cases hx : x = 0
  · rw [hx, zero_pow hn] at hpow
    rw [hx, eq_zero_of_pow_eq_zero hpow.symm]
  · have hy : y ≠ 0 := by
      rintro rfl
      rw [zero_pow hn] at hpow
      exact hx (eq_zero_of_pow_eq_zero hpow)
    -- the quotient is an n-th root of one, and its order divides both numbers
    have hquot : (x / y) ^ n = 1 := by rw [div_pow, hpow, div_self (pow_ne_zero n hy)]
    have hunits : (x / y) ^ (Fintype.card K - 1) = 1 :=
      FiniteField.pow_card_sub_one_eq_one _ (div_ne_zero hx hy)
    have hdvd := Nat.dvd_gcd (orderOf_dvd_of_pow_eq_one hquot) (orderOf_dvd_of_pow_eq_one hunits)
    rw [h, Nat.dvd_one, orderOf_eq_one_iff] at hdvd
    exact (div_eq_one_iff_eq hy).mp hdvd

/-- A diagonal matrix plus the matrix of ones, for factors `d` with inverses `e`. -/
theorem diagonal_add_sum_injective {K ι : Type*} [Field K] [Fintype ι] {d e : ι → K}
    (hinv : ∀ i, e i * d i = 1) (hsum : 1 + ∑ i, e i ≠ 0) :
    Function.Injective fun (x : ι → K) (i : ι) => x i * d i + ∑ j, x j := by
  intro x y hxy
  have hrow : ∀ i, x i * d i + ∑ j, x j = y i * d i + ∑ j, y j := fun i => congrFun hxy i
  -- every element of the difference is the same multiple of its inverse factor
  have hdiff : ∀ i, x i - y i = -(∑ j, x j - ∑ j, y j) * e i := by
    intro i
    linear_combination e i * hrow i + (y i - x i) * hinv i
  have htotal : (∑ j, x j - ∑ j, y j) * (1 + ∑ i, e i) = 0 := by
    have := Finset.sum_congr rfl fun i (_ : i ∈ univ) => hdiff i
    rw [Finset.sum_sub_distrib, ← Finset.mul_sum] at this
    linear_combination this
  have hzero := (mul_eq_zero.mp htotal).resolve_right hsum
  funext i
  have := hdiff i
  rw [hzero, neg_zero, zero_mul] at this
  exact sub_eq_zero.mp this

/-- Layers that are one-to-one, one after the other. -/
theorem foldl_injective {σ ι : Type*} {layer : σ → ι → σ}
    (h : ∀ i, Function.Injective fun s => layer s i) (is : List ι) :
    Function.Injective fun s => is.foldl layer s := by
  induction is with
  | nil => exact fun _ _ hs => hs
  | cons i is ih => exact ih.comp (h i)

end Digdigdig3
