import Mathlib.Tactic
import Mathlib.Data.Nat.ModEq

/-!
# `GFp`: Goldilocks elements in Montgomery form

`GFp` of `crates/digdigdig3/src/l3/open/crypto/dex/lighter/crypto/goldilocks.rs`, the field
of `p = 2^64 - 2^32 + 1` elements. An element `x` is stored as `x * 2^64 mod p`.

* `montyred_lt`, `montyred_mul`: `montyred` divides by `2^64` modulo `p`.
* `fromU64Reduce_eq_iff`: two integers make one element just when they agree modulo `p`.
* `GFp.toU64_lt`, `GFp.fromU64Reduce_toU64`: each element has its integer below `p`.
-/

namespace Digdigdig3.Lighter

/-- `GFp::MOD` (line 15). -/
def modulus : ℕ := 0xFFFFFFFF00000001

/-- `R2` (line 27): `2^128 mod p`. -/
def r2 : ℕ := 0xFFFFFFFE00000001

/-- The arithmetic of `u64`. -/
def wrap (n : ℕ) : ℕ := n % 2 ^ 64

/-- `wrapping_sub` on `u64`. -/
def wrappingSub (m n : ℕ) : ℕ := wrap (m + (2 ^ 64 - n))

/-- `montyred` (lines 32–45). -/
def montyred (x : ℕ) : ℕ :=
  let xl := wrap x
  let xh := x / 2 ^ 64
  let shifted := wrap (xl * 2 ^ 32)
  let a := wrap (xl + shifted)
  let e := (xl + shifted) / 2 ^ 64
  let b := wrappingSub (wrappingSub a (a / 2 ^ 32)) e
  let r := wrappingSub xh b
  let c := if xh < b then 2 ^ 32 - 1 else 0
  wrappingSub r c

theorem wrappingSub_of_le {m n : ℕ} (h : n ≤ m) (hm : m < 2 ^ 64) : wrappingSub m n = m - n := by
  unfold wrappingSub wrap
  omega

theorem wrappingSub_of_lt {m n : ℕ} (h : m < n) (hn : n ≤ 2 ^ 64) :
    wrappingSub m n = m + 2 ^ 64 - n := by
  unfold wrappingSub wrap
  omega

/-- The last two subtractions: `xh - b` modulo `p`. -/
theorem wrappingSub_borrow {xh b : ℕ} (hxh : xh < 2 ^ 64) (hb : b ≤ modulus) :
    wrappingSub (wrappingSub xh b) (if xh < b then 2 ^ 32 - 1 else 0) =
      if xh < b then xh + modulus - b else xh - b := by
  unfold modulus at *
  split_ifs with h
  · rw [wrappingSub_of_lt h (by omega), wrappingSub_of_le (by omega) (by omega)]
    omega
  · rw [wrappingSub_of_le (not_lt.mp h) (by omega), wrappingSub_of_le (Nat.zero_le _) (by omega)]
    omega

/-- The product that is taken off: `b * 2^64` is a multiple of `p` less the low half. -/
theorem montyred_low {xl : ℕ} (h : xl < 2 ^ 64) :
    ∃ a b, wrappingSub (wrappingSub (wrap (xl + wrap (xl * 2 ^ 32)))
        (wrap (xl + wrap (xl * 2 ^ 32)) / 2 ^ 32)) ((xl + wrap (xl * 2 ^ 32)) / 2 ^ 64) = b ∧
      b < modulus ∧ b * 2 ^ 64 + xl = a * modulus := by
  unfold modulus
  obtain ⟨hi, lo, rfl, hhi, hlo⟩ : ∃ hi lo, xl = hi * 2 ^ 32 + lo ∧ hi < 2 ^ 32 ∧ lo < 2 ^ 32 :=
    ⟨xl / 2 ^ 32, xl % 2 ^ 32, by omega, by omega, by omega⟩
  have hshift : wrap ((hi * 2 ^ 32 + lo) * 2 ^ 32) = lo * 2 ^ 32 := by unfold wrap; omega
  rw [hshift]
  clear hshift
  by_cases hcarry : hi + lo < 2 ^ 32
  · obtain ⟨s, hs⟩ : ∃ s, s = hi + lo := ⟨_, rfl⟩
    have ha : wrap (hi * 2 ^ 32 + lo + lo * 2 ^ 32) = s * 2 ^ 32 + lo := by
      rw [wrap, Nat.mod_eq_of_lt (by linarith)]
      linarith
    have he : (hi * 2 ^ 32 + lo + lo * 2 ^ 32) / 2 ^ 64 = 0 := Nat.div_eq_of_lt (by linarith)
    have hhigh : (s * 2 ^ 32 + lo) / 2 ^ 32 = s :=
      Nat.div_eq_of_lt_le (by linarith) (by linarith)
    refine ⟨s * 2 ^ 32 + lo, s * (2 ^ 32 - 1) + lo, ?_,
      by norm_num; linarith, by norm_num; linarith⟩
    rw [ha, he, hhigh]
    have hsub : wrappingSub (s * 2 ^ 32 + lo) s = s * (2 ^ 32 - 1) + lo := by
      rw [wrappingSub_of_le (by linarith) (by linarith)]
      norm_num
      omega
    rw [hsub, wrappingSub_of_le (Nat.zero_le _) (by norm_num; linarith), Nat.sub_zero]
  · obtain ⟨s, hs⟩ : ∃ s, s + 2 ^ 32 = hi + lo := ⟨hi + lo - 2 ^ 32, by omega⟩
    obtain ⟨low, rfl⟩ : ∃ low, lo = low + 1 := ⟨lo - 1, by omega⟩
    have ha : wrap (hi * 2 ^ 32 + (low + 1) + (low + 1) * 2 ^ 32) = s * 2 ^ 32 + (low + 1) := by
      have hcarried : hi * 2 ^ 32 + (low + 1) + (low + 1) * 2 ^ 32 =
          s * 2 ^ 32 + (low + 1) + 2 ^ 64 := by linarith
      rw [hcarried, wrap, Nat.add_mod_right, Nat.mod_eq_of_lt (by linarith)]
    have he : (hi * 2 ^ 32 + (low + 1) + (low + 1) * 2 ^ 32) / 2 ^ 64 = 1 :=
      Nat.div_eq_of_lt_le (by linarith) (by linarith)
    have hhigh : (s * 2 ^ 32 + (low + 1)) / 2 ^ 32 = s :=
      Nat.div_eq_of_lt_le (by linarith) (by linarith)
    refine ⟨s * 2 ^ 32 + (low + 1), s * (2 ^ 32 - 1) + low, ?_, by norm_num; linarith,
      by norm_num; linarith⟩
    rw [ha, he, hhigh]
    have hsub : wrappingSub (s * 2 ^ 32 + (low + 1)) s = s * (2 ^ 32 - 1) + low + 1 := by
      rw [wrappingSub_of_le (by linarith) (by linarith)]
      norm_num
      omega
    rw [hsub, wrappingSub_of_le (by omega) (by norm_num; linarith), Nat.add_sub_cancel]

/-- `montyred x * 2^64` is `x` less a multiple of `p`, or `p * 2^64` more than that. -/
theorem montyred_eq {x : ℕ} (h : x < modulus * 2 ^ 64) :
    montyred x < modulus ∧ ∃ a, montyred x * 2 ^ 64 + a * modulus = x ∨
      montyred x * 2 ^ 64 + a * modulus = x + modulus * 2 ^ 64 := by
  have hxh : x / 2 ^ 64 < modulus := Nat.div_lt_of_lt_mul (by rwa [mul_comm])
  have hxl : wrap x < 2 ^ 64 := Nat.mod_lt _ (by norm_num)
  have hsplit : x / 2 ^ 64 * 2 ^ 64 + wrap x = x := by unfold wrap; omega
  obtain ⟨a, b, hb, hlt, hmul⟩ := montyred_low hxl
  have hred : montyred x =
      if x / 2 ^ 64 < b then x / 2 ^ 64 + modulus - b else x / 2 ^ 64 - b := by
    rw [← wrappingSub_borrow (hxh.trans (by decide)) hlt.le, ← hb]
    rfl
  generalize x / 2 ^ 64 = xh at *
  generalize wrap x = xl at *
  rw [hred]
  by_cases hborrow : xh < b
  · rw [if_pos hborrow]
    obtain ⟨d, hd⟩ : ∃ d, xh + modulus = d + b := Nat.exists_eq_add_of_le' (by omega)
    rw [hd, Nat.add_sub_cancel]
    exact ⟨by omega, a, Or.inr (by linarith)⟩
  · rw [if_neg hborrow]
    obtain ⟨d, rfl⟩ : ∃ d, xh = d + b := Nat.exists_eq_add_of_le' (by omega)
    rw [Nat.add_sub_cancel]
    exact ⟨by omega, a, Or.inl (by linarith)⟩

theorem montyred_lt {x : ℕ} (h : x < modulus * 2 ^ 64) : montyred x < modulus := (montyred_eq h).1

/-- `montyred` divides by `2^64` modulo `p`. -/
theorem montyred_mul {x : ℕ} (h : x < modulus * 2 ^ 64) :
    montyred x * 2 ^ 64 ≡ x [MOD modulus] := by
  obtain ⟨-, a, heq⟩ := montyred_eq h
  have hself : (montyred x * 2 ^ 64 + a * modulus) % modulus = montyred x * 2 ^ 64 % modulus :=
    Nat.add_mul_mod_self_right _ _ _
  have hmore : (x + modulus * 2 ^ 64) % modulus = x % modulus := Nat.add_mul_mod_self_left _ _ _
  rw [Nat.ModEq, ← hself]
  obtain heq | heq := heq
  · rw [heq]
  · rw [heq, hmore]

/-! ## Elements -/

/-- `GFp` (line 11): an element in Montgomery form. -/
structure GFp where
  mont : ℕ
  mont_lt : mont < modulus
  deriving DecidableEq

theorem GFp.mont_injective {x y : GFp} (h : x.mont = y.mont) : x = y := by
  cases x
  cases y
  cases h
  rfl

theorem toNat_mul_r2_lt (v : UInt64) : v.toNat * r2 < modulus * 2 ^ 64 := by
  have hv := v.toNat_lt
  rw [mul_comm modulus]
  exact Nat.mul_lt_mul'' hv (by decide)

/-- `from_u64_reduce` (lines 50–52). -/
def fromU64Reduce (v : UInt64) : GFp where
  mont := montyred (v.toNat * r2)
  mont_lt := montyred_lt (toNat_mul_r2_lt v)

/-- `from_canonical_u64` (lines 66–70). -/
def fromCanonicalU64 (v : UInt64) : GFp := fromU64Reduce v

theorem coprime_modulus : Nat.gcd modulus (2 ^ 64) = 1 := by
  norm_num [modulus]

theorem mont_fromU64Reduce (v : UInt64) :
    (fromU64Reduce v).mont ≡ v.toNat * 2 ^ 64 [MOD modulus] := by
  have hred : (fromU64Reduce v).mont * 2 ^ 64 ≡ v.toNat * r2 [MOD modulus] :=
    montyred_mul (toNat_mul_r2_lt v)
  have hr2 : r2 ≡ 2 ^ 64 * 2 ^ 64 [MOD modulus] := by decide
  have hmul : (fromU64Reduce v).mont * 2 ^ 64 ≡ v.toNat * 2 ^ 64 * 2 ^ 64 [MOD modulus] := by
    rw [mul_assoc]
    exact hred.trans (hr2.mul_left _)
  exact Nat.ModEq.cancel_right_of_coprime coprime_modulus hmul

/-- Two integers make one element just when they agree modulo `p`. -/
theorem fromU64Reduce_eq_iff (v w : UInt64) :
    fromU64Reduce v = fromU64Reduce w ↔ v.toNat ≡ w.toNat [MOD modulus] := by
  constructor
  · intro h
    have hv := mont_fromU64Reduce v
    rw [h] at hv
    have hmul : v.toNat * 2 ^ 64 ≡ w.toNat * 2 ^ 64 [MOD modulus] :=
      hv.symm.trans (mont_fromU64Reduce w)
    exact Nat.ModEq.cancel_right_of_coprime coprime_modulus hmul
  · intro h
    have hmont : (fromU64Reduce v).mont ≡ (fromU64Reduce w).mont [MOD modulus] :=
      (mont_fromU64Reduce v).trans ((h.mul_right _).trans (mont_fromU64Reduce w).symm)
    exact GFp.mont_injective
      (hmont.eq_of_lt_of_lt (fromU64Reduce v).mont_lt (fromU64Reduce w).mont_lt)

/-- `to_u64` (lines 74–76): the canonical integer of an element. -/
def GFp.toU64 (x : GFp) : UInt64 := UInt64.ofNat (montyred x.mont)

theorem GFp.mont_lt_mul (x : GFp) : x.mont < modulus * 2 ^ 64 := x.mont_lt.trans (by decide)

theorem GFp.toNat_toU64 (x : GFp) : x.toU64.toNat = montyred x.mont :=
  UInt64.toNat_ofNat_of_lt' ((montyred_lt x.mont_lt_mul).trans (by decide))

theorem GFp.toU64_lt (x : GFp) : x.toU64.toNat < modulus := by
  rw [x.toNat_toU64]
  exact montyred_lt x.mont_lt_mul

theorem GFp.fromU64Reduce_toU64 (x : GFp) : fromU64Reduce x.toU64 = x := by
  have hmont : (fromU64Reduce x.toU64).mont ≡ x.mont [MOD modulus] := by
    apply (mont_fromU64Reduce x.toU64).trans
    rw [x.toNat_toU64]
    exact montyred_mul x.mont_lt_mul
  exact GFp.mont_injective (hmont.eq_of_lt_of_lt (fromU64Reduce x.toU64).mont_lt x.mont_lt)

end Digdigdig3.Lighter
