import Mathlib.Data.Int.Log
import Mathlib.Data.Rat.Floor
import Mathlib.Order.Monotone.Basic
import Mathlib.Tactic

/-!
# The bit patterns of non-negative doubles

A non-negative finite `f64` has the sign bit `0`, so its bit pattern is its exponent field
times `2 ^ 52` plus its fraction field. `ofBits` gives the number of a pattern, `toBits` the
pattern of a number.

* `strictMono_ofBits`: a larger pattern is a larger number.
* `toBits_ofBits`: a pattern is recovered from its number.
* `toBits_lt_toBits_iff`: the patterns of doubles are ordered as the doubles are.
* `toBits_le`, `ofBits_succ_le`: `toBits` rounds down, to a number with 53 bits.
-/

namespace Digdigdig3.Float64

/-- The number with the bit pattern `bits`: a multiple of `2 ^ (-1074)` below the first normal
    number, a significand of 53 bits from there on. -/
def ofBits (bits : ℕ) : ℚ :=
  if bits / 2 ^ 52 = 0 then (bits % 2 ^ 52 : ℕ) * 2 ^ (-1074 : ℤ)
  else (2 ^ 52 + bits % 2 ^ 52 : ℕ) * 2 ^ (((bits / 2 ^ 52 : ℕ) : ℤ) - 1075)

/-- The bit pattern of `q`, rounded down. -/
def toBits (q : ℚ) : ℕ :=
  if q < 2 ^ (-1022 : ℤ) then ⌊q * 2 ^ (1074 : ℤ)⌋₊
  else ((Int.log 2 q + 1023) * 2 ^ 52 + (⌊q * 2 ^ (52 - Int.log 2 q)⌋ - 2 ^ 52)).toNat

/-- `q` is a finite double above zero; the exponent field of an infinity is 2047. -/
def IsPositiveDouble (q : ℚ) : Prop := ∃ bits, 0 < bits ∧ bits < 2047 * 2 ^ 52 ∧ ofBits bits = q

theorem ofBits_subnormal {m : ℕ} (hm : m < 2 ^ 52) : ofBits m = m * 2 ^ (-1074 : ℤ) := by
  rw [ofBits, Nat.div_eq_of_lt hm, Nat.mod_eq_of_lt hm, if_pos rfl]

@[simp] theorem ofBits_zero : ofBits 0 = 0 := by
  rw [ofBits_subnormal (by decide), Nat.cast_zero, zero_mul]

theorem ofBits_normal {e m : ℕ} (he : e ≠ 0) (hm : m < 2 ^ 52) :
    ofBits (e * 2 ^ 52 + m) = (2 ^ 52 + m : ℕ) * 2 ^ ((e : ℤ) - 1075) := by
  have hdiv : (e * 2 ^ 52 + m) / 2 ^ 52 = e := by omega
  have hmod : (e * 2 ^ 52 + m) % 2 ^ 52 = m := by omega
  rw [ofBits, hdiv, hmod, if_neg he]

/-- A bit pattern is a fraction, or an exponent and a fraction. -/
theorem bits_cases (bits : ℕ) :
    bits < 2 ^ 52 ∨ ∃ e m, e ≠ 0 ∧ m < 2 ^ 52 ∧ bits = e * 2 ^ 52 + m := by
  by_cases h : bits < 2 ^ 52
  · exact .inl h
  · refine .inr ⟨bits / 2 ^ 52, bits % 2 ^ 52, ?_, Nat.mod_lt _ (by decide), ?_⟩ <;> omega

/-- One bit more is one more in the last place, also where it is carried into the exponent. -/
theorem ofBits_succ_normal {e m : ℕ} (he : e ≠ 0) (hm : m < 2 ^ 52) :
    ofBits (e * 2 ^ 52 + m + 1) = (2 ^ 52 + m + 1 : ℕ) * 2 ^ ((e : ℤ) - 1075) := by
  by_cases hcarry : m + 1 < 2 ^ 52
  · rw [add_assoc, ofBits_normal he hcarry, ← add_assoc]
  · have hnext : e * 2 ^ 52 + m + 1 = (e + 1) * 2 ^ 52 + 0 := by omega
    have hexp : ((e + 1 : ℕ) : ℤ) - 1075 = ((e : ℤ) - 1075) + 1 := by push_cast; ring
    have htwice : 2 ^ 52 + m + 1 = (2 ^ 52 + 0) * 2 := by omega
    rw [hnext, ofBits_normal e.succ_ne_zero (by decide), hexp, zpow_add_one₀ two_ne_zero, htwice]
    push_cast
    ring

theorem ofBits_succ_subnormal {m : ℕ} (hm : m < 2 ^ 52) :
    ofBits (m + 1) = (m + 1 : ℕ) * 2 ^ (-1074 : ℤ) := by
  by_cases hcarry : m + 1 < 2 ^ 52
  · exact ofBits_subnormal hcarry
  · have hone : m + 1 = 1 * 2 ^ 52 + 0 := by omega
    rw [hone, ofBits_normal one_ne_zero (by decide)]
    norm_num

theorem strictMono_ofBits : StrictMono ofBits := by
  apply strictMono_nat_of_lt_succ
  intro bits
  rcases bits_cases bits with h | ⟨e, m, he, hm, rfl⟩
  · rw [ofBits_subnormal h, ofBits_succ_subnormal h]
    gcongr
    exact Nat.lt_succ_self bits
  · rw [ofBits_normal he hm, ofBits_succ_normal he hm]
    apply mul_lt_mul_of_pos_right _ (by positivity)
    exact_mod_cast Nat.lt_succ_self (2 ^ 52 + m)

/-- A normal number has its leading bit at its exponent. -/
theorem log_normal {e m : ℕ} (hm : m < 2 ^ 52) :
    Int.log 2 ((2 ^ 52 + m : ℕ) * 2 ^ ((e : ℤ) - 1075) : ℚ) = (e : ℤ) - 1023 := by
  have hpos : (0 : ℚ) < (2 ^ 52 + m : ℕ) * 2 ^ ((e : ℤ) - 1075) := by positivity
  have hsplit : ∀ k : ℤ, ((2 : ℕ) : ℚ) ^ ((e : ℤ) - 1023 + k) =
      2 ^ (52 + k) * 2 ^ ((e : ℤ) - 1075) := by
    intro k
    rw [Nat.cast_ofNat, ← zpow_add₀ two_ne_zero]
    congr 1
    ring
  apply le_antisymm
  · rw [← Int.lt_add_one_iff, ← Int.lt_zpow_iff_log_lt one_lt_two hpos, hsplit]
    apply mul_lt_mul_of_pos_right _ (by positivity)
    have : ((2 ^ 52 + m : ℕ) : ℚ) < (2 ^ 53 : ℕ) := by exact_mod_cast (by omega)
    norm_num at this ⊢
    linarith
  · rw [← Int.zpow_le_iff_le_log one_lt_two hpos, ← add_zero ((e : ℤ) - 1023), hsplit]
    apply mul_le_mul_of_nonneg_right _ (by positivity)
    have : ((2 ^ 52 : ℕ) : ℚ) ≤ (2 ^ 52 + m : ℕ) := by exact_mod_cast (by omega)
    norm_num at this ⊢

theorem toBits_ofBits (bits : ℕ) : toBits (ofBits bits) = bits := by
  rcases bits_cases bits with h | ⟨e, m, he, hm, rfl⟩
  · have hlt : (bits : ℚ) * 2 ^ (-1074 : ℤ) < 2 ^ (-1022 : ℤ) := by
      have hsplit : (2 : ℚ) ^ (-1022 : ℤ) = 2 ^ (52 : ℤ) * 2 ^ (-1074 : ℤ) := by
        rw [← zpow_add₀ two_ne_zero]
        norm_num
      rw [hsplit]
      apply mul_lt_mul_of_pos_right _ (by positivity)
      exact_mod_cast h
    have hscale : (bits : ℚ) * 2 ^ (-1074 : ℤ) * 2 ^ (1074 : ℤ) = bits := by
      rw [mul_assoc, ← zpow_add₀ two_ne_zero, neg_add_cancel, zpow_zero, mul_one]
    rw [ofBits_subnormal h, toBits, if_pos hlt, hscale, Nat.floor_natCast]
  · have hge : ¬ ((2 ^ 52 + m : ℕ) * 2 ^ ((e : ℤ) - 1075) : ℚ) < 2 ^ (-1022 : ℤ) := by
      have hsplit : (2 : ℚ) ^ (-1022 : ℤ) = 2 ^ (52 : ℤ) * 2 ^ (-1074 : ℤ) := by
        rw [← zpow_add₀ two_ne_zero]
        norm_num
      rw [hsplit, not_lt]
      apply mul_le_mul _ _ (by positivity) (by positivity)
      · exact_mod_cast Nat.le_add_right (2 ^ 52) m
      · apply zpow_le_zpow_right₀ one_le_two
        omega
    have hscale : ((2 ^ 52 + m : ℕ) * 2 ^ ((e : ℤ) - 1075) * 2 ^ (52 - ((e : ℤ) - 1023)) : ℚ) =
        ((2 ^ 52 + m : ℕ) : ℤ) := by
      rw [mul_assoc, ← zpow_add₀ two_ne_zero]
      have hzero : (e : ℤ) - 1075 + (52 - ((e : ℤ) - 1023)) = 0 := by ring
      rw [hzero, zpow_zero, mul_one, Int.cast_natCast]
    rw [ofBits_normal he hm, toBits, if_neg hge, log_normal hm, hscale, Int.floor_intCast]
    push_cast
    omega

/-- The double before a number is not much smaller than it. -/
theorem ofBits_succ_le (bits : ℕ) :
    ofBits (bits + 1) ≤ 2 ^ 53 * (ofBits (bits + 1) - ofBits bits) := by
  rcases bits_cases bits with h | ⟨e, m, he, hm, rfl⟩
  · rw [ofBits_subnormal h, ofBits_succ_subnormal h, ← sub_mul, ← mul_assoc]
    apply mul_le_mul_of_nonneg_right _ (by positivity)
    have hcast : ((bits + 1 : ℕ) : ℚ) ≤ (2 ^ 53 : ℕ) := by exact_mod_cast (by omega)
    push_cast at hcast ⊢
    linarith
  · rw [ofBits_normal he hm, ofBits_succ_normal he hm, ← sub_mul, ← mul_assoc]
    apply mul_le_mul_of_nonneg_right _ (by positivity)
    have hcast : ((2 ^ 52 + m + 1 : ℕ) : ℚ) ≤ (2 ^ 53 : ℕ) := by exact_mod_cast (by omega)
    push_cast at hcast ⊢
    linarith

theorem toBits_subnormal_le {q : ℚ} (hq : 0 ≤ q) (h : q < 2 ^ (-1022 : ℤ)) :
    ofBits (toBits q) ≤ q ∧ q < ofBits (toBits q + 1) := by
  have hsplit : (2 : ℚ) ^ (-1022 : ℤ) = 2 ^ (52 : ℤ) * 2 ^ (-1074 : ℤ) := by
    rw [← zpow_add₀ two_ne_zero]
    norm_num
  have hscale : q = q * 2 ^ (1074 : ℤ) * 2 ^ (-1074 : ℤ) := by
    rw [mul_assoc, ← zpow_add₀ two_ne_zero, add_neg_cancel, zpow_zero, mul_one]
  have hpos : (0 : ℚ) < 2 ^ (-1074 : ℤ) := by positivity
  have hnonneg : 0 ≤ q * 2 ^ (1074 : ℤ) := by positivity
  have hlt : ⌊q * 2 ^ (1074 : ℤ)⌋₊ < 2 ^ 52 := by
    rw [Nat.floor_lt hnonneg]
    rw [hsplit, hscale] at h
    have := lt_of_mul_lt_mul_right h hpos.le
    exact_mod_cast this
  rw [toBits, if_pos h, ofBits_subnormal hlt, ofBits_succ_subnormal hlt]
  constructor
  · nth_rewrite 2 [hscale]
    exact mul_le_mul_of_nonneg_right (Nat.floor_le hnonneg) hpos.le
  · nth_rewrite 1 [hscale]
    apply mul_lt_mul_of_pos_right _ hpos
    exact_mod_cast Nat.lt_floor_add_one (q * 2 ^ (1074 : ℤ))

/-- The significand of a normal number has 53 bits before the point. -/
theorem significand_bounds {q : ℚ} (hq : 0 < q) :
    (2 ^ 52 : ℚ) ≤ q * 2 ^ (52 - Int.log 2 q) ∧ q * 2 ^ (52 - Int.log 2 q) < 2 ^ 53 := by
  have hle := Int.zpow_log_le_self one_lt_two hq
  have hlt := Int.lt_zpow_succ_log_self one_lt_two q
  have hpos : (0 : ℚ) < 2 ^ (52 - Int.log 2 q) := by positivity
  have hmul : ∀ k : ℤ, (2 : ℚ) ^ (Int.log 2 q + k) * 2 ^ (52 - Int.log 2 q) = 2 ^ (52 + k) := by
    intro k
    rw [← zpow_add₀ two_ne_zero]
    congr 1
    ring
  constructor
  · calc (2 ^ 52 : ℚ) = 2 ^ (Int.log 2 q + 0) * 2 ^ (52 - Int.log 2 q) := (hmul 0).symm
      _ ≤ q * 2 ^ (52 - Int.log 2 q) := by
        rw [add_zero]
        exact mul_le_mul_of_nonneg_right (by exact_mod_cast hle) hpos.le
  · calc q * 2 ^ (52 - Int.log 2 q)
        < 2 ^ (Int.log 2 q + 1) * 2 ^ (52 - Int.log 2 q) :=
          mul_lt_mul_of_pos_right (by exact_mod_cast hlt) hpos
      _ = 2 ^ 53 := hmul 1

theorem toBits_normal_le {q : ℚ} (h : 2 ^ (-1022 : ℤ) ≤ q) :
    ofBits (toBits q) ≤ q ∧ q < ofBits (toBits q + 1) := by
  have hq : 0 < q := lt_of_lt_of_le (by positivity) h
  have hlog : -1022 ≤ Int.log 2 q := by
    rw [← Int.zpow_le_iff_le_log one_lt_two hq]
    exact_mod_cast h
  obtain ⟨e, he⟩ := Int.eq_ofNat_of_zero_le (show 0 ≤ Int.log 2 q + 1023 by omega)
  have hunit : (0 : ℚ) < 2 ^ ((e : ℤ) - 1075) := by positivity
  have hscale : q = q * 2 ^ (52 - Int.log 2 q) * 2 ^ ((e : ℤ) - 1075) := by
    have hexp : 52 - Int.log 2 q = -((e : ℤ) - 1075) := by omega
    rw [hexp, mul_assoc, ← zpow_add₀ two_ne_zero, neg_add_cancel, zpow_zero, mul_one]
  obtain ⟨hlow, hup⟩ := significand_bounds hq
  have hfloor : (2 ^ 52 : ℤ) ≤ ⌊q * 2 ^ (52 - Int.log 2 q)⌋ :=
    Int.le_floor.mpr (by exact_mod_cast hlow)
  have hfloor' : ⌊q * 2 ^ (52 - Int.log 2 q)⌋ < 2 ^ 53 := Int.floor_lt.mpr (by exact_mod_cast hup)
  obtain ⟨m, hm⟩ := Int.eq_ofNat_of_zero_le (sub_nonneg.mpr hfloor)
  have hbits : toBits q = e * 2 ^ 52 + m := by
    rw [toBits, if_neg (not_lt.mpr h), he, hm]
    omega
  have hcast : ((⌊q * 2 ^ (52 - Int.log 2 q)⌋ : ℤ) : ℚ) = (2 ^ 52 + m : ℕ) := by
    have : ⌊q * 2 ^ (52 - Int.log 2 q)⌋ = ((2 ^ 52 + m : ℕ) : ℤ) := by omega
    rw [this, Int.cast_natCast]
  rw [hbits, ofBits_normal (by omega) (by omega), ofBits_succ_normal (by omega) (by omega)]
  constructor
  · nth_rewrite 1 [hscale]
    apply mul_le_mul_of_nonneg_right _ hunit.le
    rw [← hcast]
    exact Int.floor_le _
  · nth_rewrite 1 [hscale]
    apply mul_lt_mul_of_pos_right _ hunit
    rw [Nat.cast_succ, ← hcast]
    exact Int.lt_floor_add_one _

/-- `toBits` rounds down. -/
theorem toBits_le {q : ℚ} (hq : 0 ≤ q) : ofBits (toBits q) ≤ q ∧ q < ofBits (toBits q + 1) := by
  by_cases h : q < 2 ^ (-1022 : ℤ)
  · exact toBits_subnormal_le hq h
  · exact toBits_normal_le (not_lt.mp h)

/-- The pattern below `q`. -/
theorem toBits_eq {q : ℚ} {bits : ℕ} (hle : ofBits bits ≤ q) (hlt : q < ofBits (bits + 1)) :
    toBits q = bits := by
  have hnonneg : 0 ≤ q := by
    have := strictMono_ofBits.monotone (Nat.zero_le bits)
    rw [ofBits_zero] at this
    exact this.trans hle
  obtain ⟨hle', hlt'⟩ := toBits_le hnonneg
  have h₁ := strictMono_ofBits.lt_iff_lt.mp (hle.trans_lt hlt')
  have h₂ := strictMono_ofBits.lt_iff_lt.mp (hle'.trans_lt hlt)
  omega

theorem IsPositiveDouble.pos {q : ℚ} (h : IsPositiveDouble q) : 0 < q := by
  obtain ⟨bits, hbits, -, rfl⟩ := h
  rw [← ofBits_zero]
  exact strictMono_ofBits hbits

theorem ofBits_toBits {q : ℚ} (h : IsPositiveDouble q) : ofBits (toBits q) = q := by
  obtain ⟨bits, -, -, rfl⟩ := h
  rw [toBits_ofBits]

/-- The patterns of doubles are ordered as the doubles are. -/
theorem toBits_lt_toBits_iff {q r : ℚ} (hq : IsPositiveDouble q) (hr : IsPositiveDouble r) :
    toBits q < toBits r ↔ q < r := by
  rw [← strictMono_ofBits.lt_iff_lt, ofBits_toBits hq, ofBits_toBits hr]

theorem toBits_inj {q r : ℚ} (hq : IsPositiveDouble q) (hr : IsPositiveDouble r) :
    toBits q = toBits r ↔ q = r := by
  rw [← strictMono_ofBits.injective.eq_iff, ofBits_toBits hq, ofBits_toBits hr]

end Digdigdig3.Float64
