import Mathlib.Tactic
import Mathlib.Algebra.Field.Basic

/-!
# Square roots without a search

The loop of Tonelli and Shanks with a table of roots of unity, in a form with a fixed number of
turns: a pair `(r, v)` with `r ^ 2 = x * v` is multiplied, where a power of `v` is `-1`, by two
neighbouring entries of the table.

* `loop_root`: the order of `v` goes down by one turn after the other, so `r` ends as a root.
* `loop_keeps`: for an `x` that is no square, `v` never becomes one.
-/

namespace Digdigdig3.SquareRoot

variable {K : Type*} [Field K]

/-- `root j` has order `2 ^ (s - j)`: each entry is the square of the one before it. -/
structure Roots (root : ℕ → K) (s : ℕ) : Prop where
  sq : ∀ j, j + 1 < s → root j ^ 2 = root (j + 1)
  last : root (s - 1) = -1

variable [DecidableEq K]

/-- One turn, at exponent `2 ^ i`. -/
def turn (root : ℕ → K) (s i : ℕ) (p : K × K) : K × K :=
  if p.2 ^ 2 ^ i = -1 then (p.1 * root (s - 2 - i), p.2 * root (s - 1 - i)) else p

/-- The turns at `i - 1`, …, `0`. -/
def loop (root : ℕ → K) (s : ℕ) : ℕ → K × K → K × K
  | 0, p => p
  | i + 1, p => loop root s i (turn root s i p)

variable {root : ℕ → K} {s : ℕ}

omit [DecidableEq K] in
theorem Roots.pow (h : Roots root s) {i : ℕ} (hi : i < s) : root (s - 1 - i) ^ 2 ^ i = -1 := by
  induction i with
  | zero => rw [pow_zero, pow_one, Nat.sub_zero, h.last]
  | succ i ih =>
    have hsq := h.sq (s - 1 - (i + 1)) (by omega)
    have hnext : s - 1 - (i + 1) + 1 = s - 1 - i := by omega
    rw [hnext] at hsq
    rw [pow_succ', pow_mul, hsq, ih (by omega)]

theorem turn_root (h : Roots root s) {i : ℕ} (hi : i + 1 < s) {x : K} {p : K × K}
    (hp : p.1 ^ 2 = x * p.2) (hv : p.2 ^ 2 ^ (i + 1) = 1) :
    (turn root s i p).1 ^ 2 = x * (turn root s i p).2 ∧ (turn root s i p).2 ^ 2 ^ i = 1 := by
  unfold turn
  split_ifs with hneg
  · have hsq := h.sq (s - 2 - i) (by omega)
    have hnext : s - 2 - i + 1 = s - 1 - i := by omega
    rw [hnext] at hsq
    constructor
    · rw [mul_pow, hp, hsq, mul_assoc]
    · rw [mul_pow, hneg, h.pow (by omega)]
      ring
  · refine ⟨hp, ?_⟩
    rw [pow_succ, pow_mul] at hv
    exact (sq_eq_one_iff.mp hv).resolve_right hneg

/-- After the turns `r` is a root of `x`. -/
theorem loop_root (h : Roots root s) {i : ℕ} (hi : i < s) {x : K} {p : K × K}
    (hp : p.1 ^ 2 = x * p.2) (hv : p.2 ^ 2 ^ i = 1) :
    (loop root s i p).1 ^ 2 = x ∧ (loop root s i p).2 = 1 := by
  induction i generalizing p with
  | zero =>
    rw [pow_zero, pow_one] at hv
    rw [loop, hp, hv, mul_one]
    exact ⟨rfl, rfl⟩
  | succ i ih =>
    obtain ⟨hturn, hless⟩ := turn_root h hi hp hv
    exact ih (by omega) hturn hless

theorem turn_keeps (h : Roots root s) {i : ℕ} (hi : i + 1 < s) {p : K × K}
    (hv : p.2 ^ 2 ^ (s - 1) = -1) : (turn root s i p).2 ^ 2 ^ (s - 1) = -1 := by
  unfold turn
  split_ifs
  · have hsplit : 2 ^ (s - 1) = 2 ^ i * 2 ^ (s - 1 - i) := by
      rw [← pow_add]
      congr 1
      omega
    have heven : Even (2 ^ (s - 1 - i)) := (even_two).pow_of_ne_zero (by omega)
    have hone : root (s - 1 - i) ^ 2 ^ (s - 1) = 1 := by
      rw [hsplit, pow_mul, h.pow (by omega), heven.neg_one_pow]
    rw [mul_pow, hv, hone, mul_one]
  · exact hv

theorem loop_keeps (h : Roots root s) {i : ℕ} (hi : i < s) {p : K × K}
    (hv : p.2 ^ 2 ^ (s - 1) = -1) : (loop root s i p).2 ^ 2 ^ (s - 1) = -1 := by
  induction i generalizing p with
  | zero => exact hv
  | succ i ih => exact ih (by omega) (turn_keeps h hi hv)

theorem loop_zero (i : ℕ) : loop root s i (0, 0) = (0, 0) := by
  induction i with
  | zero => rfl
  | succ i ih =>
    have hturn : turn root s i (0, 0) = (0, 0) := by
      unfold turn
      split_ifs
      · simp
      · rfl
    rw [loop, hturn, ih]

end Digdigdig3.SquareRoot
