import Mathlib.Tactic
import Digdigdig3.Lighter.Scalar

/-!
# Signed digits of a scalar

`Scalar::recode_signed` of `crates/digdigdig3/src/l3/open/crypto/dex/lighter/crypto/scalar.rs`:
five bits at a time, a digit of 16 or more made negative and carried on.

* `digit_bounds`: every digit lies between -16 and 15.
* `digitSum_recodeSigned`: the digits and what is left over make up the scalar.
* `rest_eq_zero_iff`: nothing is left over up to the largest number of that many digits.
-/

namespace Digdigdig3.Lighter.Scalar

open Limbs

/-- The digit of the lowest five bits (lines 320–321). -/
def digit (t : Scalar) : ℤ :=
  let d : ℤ := (t.limbs.headD 0 &&& 31 : ℕ)
  if 16 ≤ d then d - 32 else d

/-- The scalar less the digit (lines 325–346). The last carry or borrow is dropped. -/
def settled (t : Scalar) : Scalar :=
  if t.digit < 0 then t.addInner (single (UInt64.ofNat (-t.digit).toNat))
  else (t.subInner (single (UInt64.ofNat t.digit.toNat))).1

/-- What goes on to the next digit: shifted by five bits (lines 349–352). -/
def next (t : Scalar) : Scalar where
  limbs := shiftRight 64 5 t.settled.limbs
  length_limbs := by rw [length_shiftRight, t.settled.length_limbs]
  words_limbs := words_shiftRight t.settled.words_limbs

/-- `recode_signed` (lines 305–354), into `n` digits. -/
def recodeSigned : ℕ → Scalar → List ℤ
  | 0, _ => []
  | n + 1, t => t.digit :: recodeSigned n t.next

/-- What is left after `n` digits. -/
def rest : ℕ → Scalar → Scalar
  | 0, t => t
  | n + 1, t => rest n t.next

/-- The sum of `ss[i] * 32^i`. -/
def digitSum : List ℤ → ℤ
  | [] => 0
  | d :: ds => d + 32 * digitSum ds

/-! ## One digit -/

theorem low_bits (t : Scalar) : t.limbs.headD 0 &&& 31 = t.toNat % 32 := by
  have hand : t.limbs.headD 0 &&& 31 = t.limbs.headD 0 % 2 ^ 5 :=
    Nat.and_two_pow_sub_one_eq_mod (t.limbs.headD 0) 5
  rw [hand, toNat]
  obtain ⟨x, xs, hlimbs⟩ : ∃ x xs, t.limbs = x :: xs := by
    apply List.exists_cons_of_length_pos
    rw [t.length_limbs]
    norm_num
  rw [hlimbs, value_cons, List.headD_cons]
  omega

theorem digit_eq (t : Scalar) :
    t.digit = if 16 ≤ t.toNat % 32 then (t.toNat % 32 : ℤ) - 32 else t.toNat % 32 := by
  simp only [digit, low_bits]
  split_ifs <;> omega

theorem digit_bounds (t : Scalar) : -16 ≤ t.digit ∧ t.digit ≤ 15 := by
  rw [digit_eq]
  split_ifs <;> omega

/-- With room for a carry, the digit is taken off exactly. -/
theorem toNat_settled {t : Scalar} (h : 2 * t.toNat < (2 ^ 64) ^ 5) :
    (t.settled.toNat : ℤ) = t.toNat - t.digit := by
  have hdigit := digit_eq t
  have hbounds := digit_bounds t
  have hsmall : ∀ n : ℕ, n ≤ 16 → (single (UInt64.ofNat n)).toNat = n := by
    intro n hn
    rw [toNat_single]
    exact UInt64.toNat_ofNat_of_lt' (lt_of_le_of_lt hn (by decide))
  unfold settled
  split_ifs with hneg
  · rw [toNat_addInner, hsmall _ (by omega), Nat.mod_eq_of_lt (by omega)]
    omega
  · have hle : t.digit.toNat ≤ t.toNat := by
      rw [if_neg (by omega)] at hdigit
      omega
    obtain ⟨hlt, -, -⟩ | ⟨-, -, hsub⟩ := subInner_spec t (single (UInt64.ofNat t.digit.toNat))
    · rw [hsmall _ (by omega)] at hlt
      omega
    · rw [hsmall _ (by omega)] at hsub
      omega

/-- The digit and the rest make up the scalar, and the rest has room again. -/
theorem next_spec {t : Scalar} (h : 2 * t.toNat < (2 ^ 64) ^ 5) :
    (t.toNat : ℤ) = t.digit + 32 * t.next.toNat ∧ 2 * t.next.toNat < (2 ^ 64) ^ 5 := by
  have hsettled := toNat_settled h
  have hnext : t.next.toNat = t.settled.toNat / 2 ^ 5 :=
    value_shiftRight (by norm_num) t.settled.words_limbs
  have hdigit := digit_eq t
  have hbounds := digit_bounds t
  have hmod : (t.settled.toNat : ℤ) % 32 = 0 := by
    rw [hsettled]
    split_ifs at hdigit <;> omega
  constructor <;> omega

/-! ## All digits -/

theorem recodeSigned_digit (n : ℕ) (t : Scalar) : ∀ d ∈ recodeSigned n t, -16 ≤ d ∧ d ≤ 15 := by
  induction n generalizing t with
  | zero => exact fun d hd => absurd hd List.not_mem_nil
  | succ n ih => exact List.forall_mem_cons.mpr ⟨digit_bounds t, ih t.next⟩

@[simp] theorem length_recodeSigned (n : ℕ) (t : Scalar) : (recodeSigned n t).length = n := by
  induction n generalizing t with
  | zero => rfl
  | succ n ih => exact congrArg Nat.succ (ih t.next)

theorem recodeSigned_succ (n : ℕ) (t : Scalar) :
    recodeSigned (n + 1) t = recodeSigned n t ++ [(rest n t).digit] := by
  induction n generalizing t with
  | zero => rfl
  | succ n ih =>
    rw [recodeSigned, ih t.next]
    rfl

/-- The digits make up the scalar, but for what is left over. -/
theorem digitSum_recodeSigned (n : ℕ) {t : Scalar} (h : 2 * t.toNat < (2 ^ 64) ^ 5) :
    (t.toNat : ℤ) = digitSum (recodeSigned n t) + 32 ^ n * (rest n t).toNat := by
  induction n generalizing t with
  | zero => simp [recodeSigned, digitSum, rest]
  | succ n ih =>
    obtain ⟨hsplit, hroom⟩ := next_spec h
    rw [recodeSigned, digitSum, rest, hsplit, ih hroom, pow_succ]
    ring

theorem digitSum_concat (ds : List ℤ) (d : ℤ) :
    digitSum (ds ++ [d]) = digitSum ds + 32 ^ ds.length * d := by
  induction ds with
  | nil => simp [digitSum]
  | cons e ds ih =>
    rw [List.cons_append, digitSum, ih, digitSum, List.length_cons, pow_succ]
    ring

/-- What so many digits can make up. -/
theorem digitSum_bounds {ds : List ℤ} (h : ∀ d ∈ ds, -16 ≤ d ∧ d ≤ 15) :
    -16 * (32 ^ ds.length - 1) ≤ 31 * digitSum ds ∧
      31 * digitSum ds ≤ 15 * (32 ^ ds.length - 1) := by
  induction ds with
  | nil => simp [digitSum]
  | cons d ds ih =>
    obtain ⟨hd, hds⟩ := List.forall_mem_cons.mp h
    have hrest := ih hds
    rw [digitSum, List.length_cons, pow_succ]
    generalize (32 : ℤ) ^ ds.length = p at *
    omega

/-- Nothing is left over just up to the largest number of `n` digits. -/
theorem rest_eq_zero_iff (n : ℕ) {t : Scalar} (h : 2 * t.toNat < (2 ^ 64) ^ 5) :
    (rest n t).toNat = 0 ↔ 31 * (t.toNat : ℤ) ≤ 15 * (32 ^ n - 1) := by
  have hsum := digitSum_recodeSigned n h
  have hbounds := digitSum_bounds (recodeSigned_digit n t)
  rw [length_recodeSigned] at hbounds
  have hpow : (1 : ℤ) ≤ 32 ^ n := one_le_pow₀ (by norm_num)
  constructor
  · intro hzero
    rw [hzero, Nat.cast_zero, mul_zero, add_zero] at hsum
    omega
  · intro hle
    by_contra hne
    have hone : (32 : ℤ) ^ n * 1 ≤ 32 ^ n * (rest n t).toNat :=
      mul_le_mul_of_nonneg_left (by omega) (by omega)
    omega

end Digdigdig3.Lighter.Scalar
